import BaseOs.FileSystem.ReadData
import BaseOs.Syscall.Pointers

set_option autoImplicit false

/-! # What a call can store into

What stores into the cells of the buffer do not break, and the routines do not break themselves, holds when
a call ends or stops (`read_survives`, `getargs_wrote`). So a part of the kernel that no cell of the buffer
is in is as before (`read_keeps`). -/

namespace BaseOs

open Kernel Cells

variable {cfg : Config} {map : KernelMap} {rest : Bytes} {C : Set Cell} {k k' : Kernel} {p : Slot}
  {i : FdIndex} {fd : Int} {buf : Nat} {nbytes : Int} {line : Bytes} {α : Type*} {f : Kernel → α}

/-- Any number of stores into these cells. -/
abbrev Wrote (cfg : Config) (map : KernelMap) (rest : Bytes) (C : Set Cell) : Kernel → Kernel → Prop :=
  (kernelView cfg map rest).Wrote C

/-- A part of the kernel that stores into these cells, output, the clock and the descriptors of `p` do not
    change. -/
structure Unreached (map : KernelMap) (C : Set Cell) (p : Slot) (f : Kernel → α) : Prop where
  store : ∀ (k : Kernel) (c : Cell) (b : UInt8) (k' : Kernel), c ∈ C → k.storeCell map c b = some k' →
    f k' = f k
  setConsole : ∀ (k : Kernel) (con : Console), f (k.setConsole con) = f k
  rtc : ∀ (k : Kernel) (rtc : Rtc), f { k with rtc := rtc } = f k
  setFdTable : ∀ (k : Kernel) (table : FdTable), f (k.setFdTable p table) = f k

theorem Unreached.wrote (hf : Unreached map C p f) (h : Wrote cfg map rest C k k') : f k' = f k :=
  h.keeps hf.store

/-- A property that stores into these cells, output, the clock and a moved position do not break. `k` is the
    kernel before the call. -/
structure Survives (map : KernelMap) (C : Set Cell) (p : Slot) (k : Kernel) (P : Kernel → Prop) : Prop where
  store : ∀ (s : Kernel) (c : Cell) (b : UInt8) (s' : Kernel), c ∈ C → s.storeCell map c b = some s' → P s → P s'
  printf : ∀ text, P k → P (k.printf text)
  rtc : ∀ rtc, P k → P { k with rtc := rtc }
  moved : ∀ (s : Kernel) (i : FdIndex) (amt : UInt32), ((k.pcb p).fdTable i).fdJump ≠ none → P s →
    P (s.setFdTable p (addOffset (s.pcb p).fdTable i.val amt))

theorem Survives.wrote {P : Kernel → Prop} (hP : Survives map C p k P) (h : Wrote cfg map rest C k k')
    (hk : P k) : P k' :=
  h.preserves hP.store hk

theorem Unreached.survives (hf : Unreached map C p f) (k : Kernel) : Survives map C p k fun s => f s = f k where
  store _ _ _ _ hc hstore hs := (hf.store _ _ _ _ hc hstore).trans hs
  printf _ _ := hf.setConsole k _
  rtc _ _ := hf.rtc k _
  moved s _ _ _ hs := (hf.setFdTable s _).trans hs

/-! ## The routines -/

/-- Moving a position by nothing. -/
theorem setFdTable_addOffset_zero (k : Kernel) (p : Slot) (i : FdIndex) :
    k.setFdTable p (addOffset (k.pcb p).fdTable i.val 0) = k := by
  simp only [addOffset, fdIndex?_val, UInt32.add_zero, Function.update_eq_self, setFdTable, setPcb]

/-- `file_read` stores, then moves the position. -/
theorem fileRead_eq (k : Kernel) (p : Slot) (i : FdIndex) (buf : Nat) (nbytes : Int) :
    Pointer.fileRead cfg map rest k p i buf nbytes =
      ((kernelView cfg map rest).storeBytes k buf (readData cfg.fs
        ((k.pcb p).fdTable i).inodePtr.toUInt32 ((k.pcb p).fdTable i).filePosition (toU32 nbytes)).data).andThen
        fun k1 _ => .done (k1.setFdTable p (addOffset (k1.pcb p).fdTable i.val (readData cfg.fs
          ((k.pcb p).fdTable i).inodePtr.toUInt32 ((k.pcb p).fdTable i).filePosition
          (toU32 nbytes)).ret.toUInt32)) (readData cfg.fs ((k.pcb p).fdTable i).inodePtr.toUInt32
            ((k.pcb p).fdTable i).filePosition (toU32 nbytes)).ret := by
  unfold Pointer.fileRead
  simp only
  congr 1
  funext k1 _
  split_ifs with hpos
  · rfl
  · have hzero : (readData cfg.fs ((k.pcb p).fdTable i).inodePtr.toUInt32
        ((k.pcb p).fdTable i).filePosition (toU32 nbytes)).ret.toUInt32 = 0 := by
      by_contra hne
      exact hpos (UInt32.pos_iff_ne_zero.2 hne)
    rw [hzero, setFdTable_addOffset_zero]

theorem copyLine_spec {n j cmdCnt : Nat}
    (hC : (kernelView cfg map rest).cells k buf (cmdCnt + n) ⊆ C) :
    Wrote cfg map rest C k (Pointer.copyLine cfg map rest buf n j cmdCnt k).state ∧
      ((kernelView cfg map rest).Tracked C →
        (Pointer.copyLine cfg map rest buf n j cmdCnt k).OnlyFaults) ∧
      ∀ k' count, Pointer.copyLine cfg map rest buf n j cmdCnt k = .done k' count →
        count ≤ cmdCnt + n := by
  induction n generalizing k j cmdCnt with
  | zero =>
      refine ⟨.refl k, fun _ => Outcome.onlyFaults_done _ _, fun k' count h => ?_⟩
      cases h
      exact le_rfl
  | succ n ih =>
      have hmem : ∀ c, (kernelView cfg map rest).cell k (buf + cmdCnt) = some c → c ∈ C := fun c hc =>
        hC ⟨cmdCnt, by omega, hc⟩
      have hrest : ∀ k1, Wrote cfg map rest C k k1 →
          (kernelView cfg map rest).cells k1 buf (cmdCnt + 1 + n) ⊆ C := by
        rintro k1 hk1 c ⟨m, hm, hc⟩
        rw [hk1.cell] at hc
        exact hC ⟨m, by omega, hc⟩
      have hfirst : ∀ k1 u, (kernelView cfg map rest).storeByte k (buf + cmdCnt)
          (k.saveBuff k.currTerminal j) = .done k1 u → Wrote cfg map rest C k k1 := by
        intro k1 u hstore
        have hwrote := View.storeByte_wrote (b := k.saveBuff k.currTerminal j) hmem
        rwa [hstore] at hwrote
      unfold Pointer.copyLine
      refine ⟨?_, fun htracked => ?_, fun k' count h => ?_⟩
      · refine Outcome.state_andThen (View.storeByte_wrote hmem) fun k1 _ _ hk1 => ?_
        split_ifs
        · exact hk1
        · exact hk1.trans (ih (hrest k1 hk1)).1
      · refine (View.storeByte_onlyFaults htracked hmem).andThen fun k1 u hstore => ?_
        split_ifs
        · exact Outcome.onlyFaults_done _ _
        · exact (ih (hrest k1 (hfirst k1 u hstore))).2.1 htracked
      · obtain ⟨k1, u, hstore, h⟩ := Outcome.andThen_eq_done.1 h
        split_ifs at h
        · cases h
          omega
        · have := (ih (hrest k1 (hfirst k1 u hstore))).2.2 k' count h
          omega

theorem beginsWith_spec {cs : List UInt8} {j : Nat} :
    (Pointer.beginsWith cfg map rest buf cs j k).state = k ∧
      (Pointer.beginsWith cfg map rest buf cs j k).OnlyFaults := by
  induction cs generalizing j with
  | nil => exact ⟨rfl, Outcome.onlyFaults_done _ _⟩
  | cons c cs ih =>
      unfold Pointer.beginsWith
      constructor
      · refine Outcome.state_andThen (R := fun s => s = k) (View.loadByte_state k _) ?_
        rintro k1 b - rfl
        split_ifs
        · exact ih.1
        · rfl
      · refine (View.loadByte_onlyFaults k _).andThen fun k1 b hload => ?_
        obtain rfl := View.loadByte_eq_done hload
        split_ifs
        · exact ih.2
        · exact Outcome.onlyFaults_done _ _

/-- The end of `keyboard_read`: at most the newline is stored. -/
theorem newline_spec {count : Nat}
    (hmem : ∀ c, (kernelView cfg map rest).cell k (buf + count) = some c → c ∈ C) :
    Wrote cfg map rest C k (Pointer.newline cfg map rest k buf count).state ∧
      ((kernelView cfg map rest).Tracked C → (Pointer.newline cfg map rest k buf count).OnlyFaults) := by
  obtain ⟨hstate, hfaults⟩ := @beginsWith_spec cfg map rest k buf (ascii "exit") 0
  unfold Pointer.newline
  cases hbegins : Pointer.beginsWith cfg map rest buf (ascii "exit") 0 k with
  | stopped k1 why =>
      rw [hbegins] at hstate hfaults
      obtain rfl : k1 = k := hstate
      refine ⟨.refl k1, fun _ s why' h => ?_⟩
      cases h
      exact hfaults k1 why rfl
  | done k1 isExit =>
      rw [hbegins] at hstate
      obtain rfl : k1 = k := hstate
      simp only [Outcome.done_andThen]
      split_ifs
      · exact ⟨.refl k1, fun _ => Outcome.onlyFaults_done _ _⟩
      · refine ⟨Outcome.state_andThen (View.storeByte_wrote hmem) fun _ _ _ h => h, fun htracked => ?_⟩
        exact (View.storeByte_onlyFaults htracked hmem).andThen fun _ _ _ => Outcome.onlyFaults_done _ _

/-- The kernel when `keyboard_read` is released. -/
def Kernel.released (k : Kernel) (line : Bytes) : Kernel :=
  { k with keyboard := { k.keyboard with kbdrFlag := true } }.setRow line

theorem keyboardRead_spec
    (hC : (kernelView cfg map rest).cells k buf (min nbytes.toNat termBuffSize + 1) ⊆ C) :
    Wrote cfg map rest C (k.released line) (Pointer.keyboardRead cfg map rest k buf nbytes line).state ∧
      ((kernelView cfg map rest).Tracked C →
        (Pointer.keyboardRead cfg map rest k buf nbytes line).OnlyFaults) := by
  set first := Scan.scan (fun i => line i == 32) 0 (min nbytes.toNat termBuffSize)
  have hcells : (kernelView cfg map rest).cells (k.released line) buf
      (0 + min nbytes.toNat (termBuffSize - first)) ⊆ C := by
    rintro c ⟨m, hm, hc⟩
    exact hC ⟨m, by omega, hc⟩
  obtain ⟨hwrote, hfaults, hcount⟩ :=
    @copyLine_spec cfg map rest C (k.released line) buf _ first 0 hcells
  unfold Pointer.keyboardRead
  change Wrote cfg map rest C (k.released line) (Outcome.andThen (Pointer.copyLine cfg map rest buf
    (min nbytes.toNat (termBuffSize - first)) first 0 (k.released line)) _).state ∧ (_ →
    (Outcome.andThen (Pointer.copyLine cfg map rest buf (min nbytes.toNat (termBuffSize - first)) first 0
      (k.released line)) _).OnlyFaults)
  cases hcopy : Pointer.copyLine cfg map rest buf (min nbytes.toNat (termBuffSize - first)) first 0
      (k.released line) with
  | stopped k1 why =>
      rw [hcopy] at hwrote hfaults
      refine ⟨hwrote, fun htracked s why' h => ?_⟩
      cases h
      exact hfaults htracked k1 why rfl
  | done k1 count =>
      rw [hcopy] at hwrote
      have hwrote1 : Wrote cfg map rest C (k.released line) k1 := hwrote
      -- the newline is behind the last byte copied
      have hle := hcount k1 count hcopy
      have hmem : ∀ c, (kernelView cfg map rest).cell k1 (buf + count) = some c → c ∈ C := by
        intro c hc
        rw [hwrote1.cell] at hc
        exact hC ⟨count, by omega, hc⟩
      obtain ⟨hnew, hnewFaults⟩ := newline_spec hmem
      exact ⟨hwrote1.trans hnew, hnewFaults⟩

theorem fileRead_wrote (hC : (kernelView cfg map rest).cells k buf (min (toU32 nbytes).toNat
      ((cfg.fs.inodes ((k.pcb p).fdTable i).inodePtr.toUInt32.toNat).fileSize.toNat -
        ((k.pcb p).fdTable i).filePosition.toNat)) ⊆ C) :
    Wrote cfg map rest C k ((kernelView cfg map rest).storeBytes k buf (readData cfg.fs
        ((k.pcb p).fdTable i).inodePtr.toUInt32 ((k.pcb p).fdTable i).filePosition
          (toU32 nbytes)).data).state ∧
      ((kernelView cfg map rest).Tracked C →
        (Pointer.fileRead cfg map rest k p i buf nbytes).OnlyFaults) := by
  have hcells := (View.cells_mono (readData_length_le cfg.fs ((k.pcb p).fdTable i).inodePtr.toUInt32
    ((k.pcb p).fdTable i).filePosition (toU32 nbytes))).trans hC
  refine ⟨View.storeBytes_wrote hcells, fun htracked => ?_⟩
  rw [fileRead_eq]
  exact (View.storeBytes_onlyFaults htracked hcells).andThen fun _ _ _ => Outcome.onlyFaults_done _ _

/-- What `dir_read` stores. -/
theorem dirName_wrote (name : Bytes)
    (hC : (kernelView cfg map rest).cells k buf (min nbytes.toNat maxNameCharacters) ⊆ C) :
    Wrote cfg map rest C k ((kernelView cfg map rest).storeBytes k buf ((List.range
        (Scan.scan (fun i => name i != 0) 0 (min nbytes.toNat maxNameCharacters))).map name)).state ∧
      ((kernelView cfg map rest).Tracked C → ((kernelView cfg map rest).storeBytes k buf ((List.range
        (Scan.scan (fun i => name i != 0) 0 (min nbytes.toNat maxNameCharacters))).map
          name)).OnlyFaults) := by
  have hlen : ((List.range (Scan.scan (fun i => name i != 0) 0
      (min nbytes.toNat maxNameCharacters))).map name).length ≤ min nbytes.toNat maxNameCharacters := by
    rw [List.length_map, List.length_range]
    have := (Scan.scan_spec (fun i => name i != 0) 0 (min nbytes.toNat maxNameCharacters)).2.1
    omega
  have hcells := (View.cells_mono hlen).trans hC
  exact ⟨View.storeBytes_wrote hcells, fun htracked => View.storeBytes_onlyFaults htracked hcells⟩

/-! ### `terminal_read` -/

theorem setRow_setRow (k : Kernel) (row row' : Bytes) : (k.setRow row).setRow row' = k.setRow row' := by
  simp only [Kernel.setRow, Function.update_idem]

theorem setRow_self (k : Kernel) : k.setRow (k.saveBuff k.currTerminal) = k := by
  simp only [Kernel.setRow, Function.update_eq_self]

/-- The first `n` bytes of one row, the rest of another. -/
def spliced (new old : Bytes) (n : Nat) : Bytes := fun i => if i < n then new i else old i

/-- The second loop of `terminal_read` changes the row of the current terminal, as far as the buffer is
    mapped: each byte is loaded after the ones before it have been stored. -/
theorem fillRow_spec {n j : Nat} :
    (Pointer.fillRow cfg map rest buf n j k).OnlyFaults ∧
    ∃ row m, (Pointer.fillRow cfg map rest buf n j k).state = k.setRow row ∧ j ≤ m ∧ m ≤ j + n ∧
      (m < j + n → (kernelView cfg map rest).cell k (buf + m) = none) ∧
      (∀ i, i < j ∨ m ≤ i → row i = k.saveBuff k.currTerminal i) ∧
      ∀ i, j ≤ i → i < m → ∃ c, (kernelView cfg map rest).cell k (buf + i) = some c ∧
        row i = (k.setRow (spliced row (k.saveBuff k.currTerminal) i)).loadCell map rest c := by
  induction n generalizing k j with
  | zero =>
      refine ⟨Outcome.onlyFaults_done _ _, k.saveBuff k.currTerminal, j, (setRow_self k).symm, le_rfl,
        le_rfl, fun h => by omega, fun _ _ => rfl, fun i hi hlt => by omega⟩
  | succ n ih =>
      unfold Pointer.fillRow
      cases hcell : (kernelView cfg map rest).cell k (buf + j) with
      | none =>
          have hload : (kernelView cfg map rest).loadByte k (buf + j)
              = .stopped k (.fault (buf + j)) := by
            unfold View.loadByte
            rw [hcell]
          simp only [hload, Outcome.stopped_andThen]
          -- the load faults; the row is as it was
          refine ⟨?_, k.saveBuff k.currTerminal, j, (setRow_self k).symm, le_rfl, by omega,
            fun _ => hcell, fun _ _ => rfl, fun i hi hlt => by omega⟩
          intro s why h
          cases h
          exact ⟨_, rfl⟩
      | some c =>
          have hload : (kernelView cfg map rest).loadByte k (buf + j)
              = .done k (k.loadCell map rest c) := by
            unfold View.loadByte
            rw [hcell]
            rfl
          simp only [hload, Outcome.done_andThen]
          set b := k.loadCell map rest c
          have hrow1 : (k.setRow (Function.update (k.saveBuff k.currTerminal) j b)).saveBuff
              (k.setRow (Function.update (k.saveBuff k.currTerminal) j b)).currTerminal
              = Function.update (k.saveBuff k.currTerminal) j b := Function.update_self _ _ _
          -- the other bytes are loaded with byte `j` in the row, where the buffer may lie
          obtain ⟨hfaults, row, m, hstate, hjm, hmn, hend, hkept, hloaded⟩ :=
            @ih (k.setRow (Function.update (k.saveBuff k.currTerminal) j b)) (j + 1)
          rw [hrow1] at hkept hloaded
          have hj : row j = b := by rw [hkept j (Or.inl (by omega)), Function.update_self]
          refine ⟨hfaults, row, m, by rw [hstate, setRow_setRow], by omega, by omega,
            fun h => hend (by omega), fun i hi => ?_, fun i hi hlt => ?_⟩
          · rw [hkept i (by omega), Function.update_of_ne (by omega)]
          · rcases Nat.eq_or_lt_of_le hi with rfl | hgt
            · -- nothing has been stored yet
              have hsame : spliced row (k.saveBuff k.currTerminal) j = k.saveBuff k.currTerminal := by
                funext x
                unfold spliced
                split_ifs with hx
                · rw [hkept x (Or.inl (by omega)), Function.update_of_ne (by omega)]
                · rfl
              rw [hsame, setRow_self]
              exact ⟨c, hcell, hj⟩
            · obtain ⟨c', hc', hrow'⟩ := hloaded i hgt hlt
              refine ⟨c', hc', ?_⟩
              have hsame : spliced row (Function.update (k.saveBuff k.currTerminal) j b) i
                  = spliced row (k.saveBuff k.currTerminal) i := by
                funext x
                unfold spliced
                split_ifs with hx
                · rfl
                · rw [Function.update_of_ne (by omega)]
              rw [hrow', hsame, setRow_setRow]

/-- `terminal_read` changes the row of the current terminal only. -/
theorem terminalRead_row :
    (Pointer.terminalRead cfg map rest k buf nbytes).OnlyFaults ∧
      ∃ row, (Pointer.terminalRead cfg map rest k buf nbytes).state = k.setRow row := by
  obtain ⟨hfaults, row, m, hstate, -⟩ := @fillRow_spec cfg map rest
    (k.setRow (Pointer.cleared (k.saveBuff k.currTerminal))) buf (min nbytes.toNat termBuffSize) 0
  unfold Pointer.terminalRead
  refine ⟨hfaults.andThen fun _ _ _ => Outcome.onlyFaults_done _ _, row, ?_⟩
  refine Outcome.state_andThen (R := fun s => s = k.setRow row) ?_ fun s _ _ h => h
  rw [hstate, setRow_setRow]

/-- `terminal_read` puts back the row of the current terminal exactly if each byte of the buffer, as it is
    when its turn comes, is the one that was there. -/
theorem terminalRead_filled :
    ∃ row, (Pointer.terminalRead cfg map rest k buf nbytes).state = k.setRow row ∧
      ((∀ i < termBuffSize, row i = k.saveBuff k.currTerminal i) ↔
        ∀ i < termBuffSize, Pointer.filled cfg map rest k buf nbytes i
          = k.saveBuff k.currTerminal i) := by
  set old := k.saveBuff k.currTerminal with hold
  obtain ⟨-, row, m, hstate, -, hmn, hend, hrest, hloaded⟩ := @fillRow_spec cfg map rest
    (k.setRow (Pointer.cleared old)) buf (min nbytes.toNat termBuffSize) 0
  have hrow0 : (k.setRow (Pointer.cleared old)).saveBuff (k.setRow (Pointer.cleared old)).currTerminal
      = Pointer.cleared old := Function.update_self _ _ _
  rw [hrow0] at hrest hloaded
  rw [setRow_setRow] at hstate
  simp only [setRow_setRow] at hloaded
  refine ⟨row, Outcome.state_andThen (R := fun s => s = k.setRow row) hstate fun s _ _ h => h, ?_⟩
  -- what is stored at an index, once the indices below it are as they were
  have hfilled : ∀ i < termBuffSize, (∀ x < i, row x = old x) →
      row i = Pointer.filled cfg map rest k buf nbytes i := by
    intro i hi hbelow
    have hspliced : spliced row (Pointer.cleared old) i = Pointer.restored old i := by
      funext x
      unfold spliced Pointer.restored
      split_ifs with hx
      · exact hbelow x hx
      · rfl
    unfold Pointer.filled
    by_cases him : i < m
    · obtain ⟨c, hc, hrow⟩ := hloaded i (Nat.zero_le i) him
      have hc' : (kernelView cfg map rest).cell k (buf + i) = some c := hc
      rw [if_pos, hc', hrow, hspliced]
      refine ⟨by omega, fun j hj => ?_⟩
      obtain ⟨c', hc', -⟩ := hloaded j (Nat.zero_le j) (by omega)
      have hmapped : (kernelView cfg map rest).cell k (buf + j) = some c' := hc'
      rw [hmapped]
      exact Option.some_ne_none c'
    · have hzero : row i = 0 := by
        rw [hrest i (Or.inr (by omega))]
        exact if_pos hi
      rw [hzero]
      split_ifs with hcond
      · have hm : m < 0 + min nbytes.toNat termBuffSize := by omega
        have hnone : (kernelView cfg map rest).cell k (buf + m) = none := hend hm
        rcases Nat.lt_or_ge m i with hlt | hge
        · exact absurd hnone (hcond.2 m hlt)
        · obtain rfl : m = i := by omega
          rw [hnone]
      · rfl
  constructor
  · intro hsame i hi
    rw [← hfilled i hi fun x hx => hsame x (by omega)]
    exact hsame i hi
  · intro hback i
    induction i using Nat.strong_induction_on with
    | _ i ih =>
        intro hi
        rw [hfilled i hi fun x hx => ih x hx (by omega)]
        exact hback i hi

/-! ## `read` -/

/-- How a `read` of the running process `p` goes. -/
inductive ReadGoes (cfg : Config) (map : KernelMap) (rest : Bytes) (k : Kernel) (p : Slot) (fd : Int)
    (buf : Nat) (nbytes : Int) (line : Bytes) : CallOutcome → Prop
  | refused (text : List UInt8) : ReadGoes cfg map rest k p fd buf nbytes line (.done (k.printf text) (-1))
  | null : ReadGoes cfg map rest k p fd buf nbytes line (.done k (-1))
  | wild {i : FdIndex} (index : fdIndex? fd = some i) (valid : ((k.pcb p).fdTable i).flags ≠ fdOff)
      (jump : ((k.pcb p).fdTable i).fdJump = none ∨
        ∃ address, ((k.pcb p).fdTable i).fdJump = some (.wild address)) :
      ReadGoes cfg map rest k p fd buf nbytes line (.stopped k .wild)
  | rtc : ReadGoes cfg map rest k p fd buf nbytes line (.done (rtcRead k emptyBuf).kernel 0)
  | filesys {i : FdIndex} (index : fdIndex? fd = some i)
      (jump : ((k.pcb p).fdTable i).fdJump = some .filesys) :
      ReadGoes cfg map rest k p fd buf nbytes line (Pointer.fileRead cfg map rest k p i buf nbytes)
  | dir {i : FdIndex} (index : fdIndex? fd = some i)
      (jump : ((k.pcb p).fdTable i).fdJump = some .dir) :
      ReadGoes cfg map rest k p fd buf nbytes line (Pointer.dirRead cfg map rest k p i buf nbytes)
  | term (through : Pointer.through k fd buf = some .term) :
      ReadGoes cfg map rest k p fd buf nbytes line (Pointer.terminalRead cfg map rest k buf nbytes)
  | kybd {i : FdIndex} (index : fdIndex? fd = some i)
      (jump : ((k.pcb p).fdTable i).fdJump = some .kybd)
      (through : Pointer.through k fd buf = some .kybd) :
      ReadGoes cfg map rest k p fd buf nbytes line (Pointer.keyboardRead cfg map rest k buf nbytes line)

theorem read_goes (hp : k.currentPcb? = some p) (fd : Int) (buf : Nat) (nbytes : Int) (line : Bytes) :
    ReadGoes cfg map rest k p fd buf nbytes line (Pointer.read cfg map rest k fd buf nbytes line) := by
  unfold Pointer.read
  cases hi : fdIndex? fd with
  | none => exact .refused _
  | some i =>
      simp only [hp]
      split_ifs with hvalid hnull
      · exact .null
      · have hthrough : Pointer.through k fd buf = ((k.pcb p).fdTable i).fdJump := by
          unfold Pointer.through readsThrough
          rw [if_neg hnull, hi, hp]
          exact if_pos hvalid
        have hopen := flags_ne_of_valid hi hvalid
        cases hjump : ((k.pcb p).fdTable i).fdJump with
        | none => exact .wild hi hopen (Or.inl hjump)
        | some table =>
            cases table with
            | wild address => exact .wild hi hopen (Or.inr ⟨address, hjump⟩)
            | rtc => exact .rtc
            | filesys => exact .filesys hi hjump
            | dir => exact .dir hi hjump
            | term => exact .term (hthrough.trans hjump)
            | kybd => exact .kybd hi hjump (hthrough.trans hjump)
      · exact .refused _

/-- A `read` without a process prints or goes nowhere. -/
theorem read_noProcess (hp : k.currentPcb? = none) (fd : Int) (buf : Nat) (nbytes : Int) (line : Bytes) :
    (∃ text, Pointer.read cfg map rest k fd buf nbytes line = .done (k.printf text) (-1)) ∨
      Pointer.read cfg map rest k fd buf nbytes line = .stopped k .wild := by
  unfold Pointer.read
  rw [hp]
  split
  · exact Or.inl ⟨_, rfl⟩
  · exact Or.inr rfl

/-- A `read` through the terminal's table is `terminal_read`. -/
theorem read_term (h : Pointer.through k fd buf = some .term) (line : Bytes) :
    Pointer.read cfg map rest k fd buf nbytes line = Pointer.terminalRead cfg map rest k buf nbytes := by
  unfold Pointer.through readsThrough at h
  unfold Pointer.read
  split_ifs at h with hnull
  split at h
  · next i p b hi hp hb =>
      split_ifs at h with hvalid
      rw [hi, hp]
      simp only [hvalid, if_true, if_neg hnull, h]
  · cases h

/-- How far a `read` reaches, by the table. -/
theorem reach_eq (hp : k.currentPcb? = some p) (hi : fdIndex? fd = some i) :
    Pointer.reach cfg k fd nbytes = Pointer.entryReach cfg ((k.pcb p).fdTable i) nbytes := by
  unfold Pointer.reach
  rw [hi, hp]

/-- Through the terminal's table nothing is stored into the buffer. -/
theorem readCells_term (h : Pointer.through k fd buf = some .term) :
    Pointer.readCells cfg map rest k fd buf nbytes = ∅ := by
  unfold Pointer.through readsThrough at h
  split_ifs at h
  split at h
  · next i p b hi hp hb =>
      split_ifs at h
      unfold Pointer.readCells
      rw [reach_eq hp hi, Pointer.entryReach, h]
      exact Set.eq_empty_iff_forall_notMem.2 fun c ⟨_, hj, _⟩ => absurd hj (Nat.not_lt_zero _)
  · cases h

/-- What the routines do not break, and no store into the buffer does, holds after a `read`, however it
    ends. -/
theorem read_survives {P : Kernel → Prop} (hP : Survives map C p k P) (hk : P k) (hp : k.currentPcb? = some p)
    (hC : Pointer.readCells cfg map rest k fd buf nbytes ⊆ C)
    (hterm : Pointer.through k fd buf = some .term → ∀ row, P (k.setRow row))
    (hkybd : Pointer.through k fd buf = some .kybd → P (k.released line)) :
    P (Pointer.read cfg map rest k fd buf nbytes line).state := by
  have hgoes := @read_goes cfg map rest k p hp fd buf nbytes line
  unfold Pointer.readCells at hC
  generalize Pointer.read cfg map rest k fd buf nbytes line = o at hgoes ⊢
  cases hgoes with
  | refused text => exact hP.printf text hk
  | null => exact hk
  | wild => exact hk
  | rtc => exact hP.rtc _ hk
  | @filesys i hi hjump =>
      rw [reach_eq hp hi, Pointer.entryReach, hjump] at hC
      have hmoved : ((k.pcb p).fdTable i).fdJump ≠ none := by
        rw [hjump]
        exact Option.some_ne_none _
      rw [fileRead_eq]
      exact Outcome.state_andThen (hP.wrote (fileRead_wrote hC).1 hk) fun s _ _ hs => hP.moved s i _ hmoved hs
  | @dir i hi hjump =>
      rw [reach_eq hp hi, Pointer.entryReach, hjump] at hC
      have hmoved : ((k.pcb p).fdTable i).fdJump ≠ none := by
        rw [hjump]
        exact Option.some_ne_none _
      unfold Pointer.dirRead
      simp only
      split_ifs
      · exact hk
      · exact Outcome.state_andThen (hP.wrote (dirName_wrote _ hC).1 hk) fun s _ _ hs => hP.moved s i _ hmoved hs
  | term hthrough =>
      obtain ⟨-, row, hstate⟩ := @terminalRead_row cfg map rest k buf nbytes
      rw [hstate]
      exact hterm hthrough row
  | kybd hi hjump hthrough =>
      rw [reach_eq hp hi, Pointer.entryReach, hjump] at hC
      exact (keyboardRead_spec hC).1.preserves hP.store (hkybd hthrough)

/-- What the routines do not change themselves, and no byte of the buffer is in, a `read` leaves as it
    was, however it ends. -/
theorem read_keeps (hf : Unreached map C p f) (hp : k.currentPcb? = some p)
    (hC : Pointer.readCells cfg map rest k fd buf nbytes ⊆ C)
    (hterm : Pointer.through k fd buf = some .term → ∀ row, f (k.setRow row) = f k)
    (hkybd : Pointer.through k fd buf = some .kybd → f (k.released line) = f k) :
    f (Pointer.read cfg map rest k fd buf nbytes line).state = f k :=
  read_survives (hf.survives k) rfl hp hC hterm hkybd

/-- A `read` through a table in order, whose stores are kept track of, comes back or stops at a byte of
    the buffer that is not mapped. -/
theorem read_onlyFaults (hp : k.currentPcb? = some p)
    (hC : Pointer.readCells cfg map rest k fd buf nbytes ⊆ C) (htracked : (kernelView cfg map rest).Tracked C)
    (hok : ∀ i : FdIndex, ((k.pcb p).fdTable i).flags ≠ fdOff → ((k.pcb p).fdTable i).fdJump ≠ none ∧
      ∀ address, ((k.pcb p).fdTable i).fdJump ≠ some (.wild address)) :
    (Pointer.read cfg map rest k fd buf nbytes line).OnlyFaults := by
  have hgoes := @read_goes cfg map rest k p hp fd buf nbytes line
  unfold Pointer.readCells at hC
  generalize Pointer.read cfg map rest k fd buf nbytes line = o at hgoes ⊢
  cases hgoes with
  | refused | null | rtc => exact Outcome.onlyFaults_done _ _
  | @wild i hi hvalid hjump =>
      obtain ⟨hnull, hwild⟩ := hok i hvalid
      rcases hjump with hjump | ⟨address, hjump⟩
      · exact absurd hjump hnull
      · exact absurd hjump (hwild address)
  | filesys hi hjump =>
      rw [reach_eq hp hi, Pointer.entryReach, hjump] at hC
      exact (fileRead_wrote hC).2 htracked
  | dir hi hjump =>
      rw [reach_eq hp hi, Pointer.entryReach, hjump] at hC
      unfold Pointer.dirRead
      simp only
      split_ifs
      · exact Outcome.onlyFaults_done _ _
      · exact ((dirName_wrote _ hC).2 htracked).andThen fun _ _ _ => Outcome.onlyFaults_done _ _
  | term => exact terminalRead_row.1
  | kybd hi hjump =>
      rw [reach_eq hp hi, Pointer.entryReach, hjump] at hC
      exact (keyboardRead_spec hC).2 htracked

/-! ## `getargs` -/

theorem copyArgs_wrote {n j : Nat} (hC : (kernelView cfg map rest).cells k buf (j + n) ⊆ C) :
    Wrote cfg map rest C k (Pointer.copyArgs cfg map rest buf n j k).state := by
  induction n generalizing k j with
  | zero => exact .refl k
  | succ n ih =>
      unfold Pointer.copyArgs
      split
      · exact .refl k
      · refine Outcome.state_andThen (View.storeByte_wrote fun c hc => hC ⟨j, by omega, hc⟩)
          fun k1 _ _ hk1 => hk1.trans (ih ?_)
        rintro c ⟨m, hm, hc⟩
        rw [hk1.cell] at hc
        exact hC ⟨m, by omega, hc⟩

/-- The trimming loop stores where it has come without a gap. -/
theorem trimBlanks_wrote {rounds backwards : Nat}
    (hC : Pointer.stretch cfg map rest k buf backwards ⊆ C) :
    Wrote cfg map rest C k (Pointer.trimBlanks cfg map rest buf rounds backwards k).state := by
  induction rounds generalizing k backwards with
  | zero => exact .refl k
  | succ rounds ih =>
      unfold Pointer.trimBlanks
      cases hload : (kernelView cfg map rest).loadByte k (buf + backwards) with
      | stopped k1 why =>
          have hstate := (kernelView cfg map rest).loadByte_state k (buf + backwards)
          rw [hload] at hstate
          obtain rfl : k1 = k := hstate
          exact .refl k1
      | done k1 b =>
          obtain rfl := View.loadByte_eq_done hload
          have hmapped : (kernelView cfg map rest).cell k1 (buf + backwards) ≠ none := by
            intro hnone
            unfold View.loadByte at hload
            rw [hnone] at hload
            cases hload
          simp only [Outcome.done_andThen]
          split_ifs
          · refine Outcome.state_andThen (View.storeByte_wrote fun c hc =>
              hC ⟨0, fun _ hm => absurd hm (Nat.not_lt_zero _), hc⟩) fun k2 _ _ hk2 => hk2.trans (ih ?_)
            rintro c ⟨j, hgap, hc⟩
            rw [hk2.cell] at hgap hc
            refine hC ⟨j + 1, fun m hm => ?_, hc⟩
            cases m with
            | zero => exact hmapped
            | succ m => exact hgap m (Nat.lt_of_succ_lt_succ hm)
          · exact .refl k1

/-- `getargs` changes its buffer, and what is mapped below it. -/
theorem getargs_wrote (hC : Pointer.getargsCells cfg map rest k buf nbytes ⊆ C) :
    Wrote cfg map rest C k (Pointer.getargs cfg map rest k buf nbytes).state := by
  obtain ⟨hcells, hstretch⟩ := Set.union_subset_iff.1 hC
  unfold Pointer.getargs
  split_ifs
  · exact .refl k
  · have hclear : Wrote cfg map rest C k ((kernelView cfg map rest).storeBytes k buf
        (List.replicate (toU32 nbytes).toNat 0)).state :=
      View.storeBytes_wrote (by rwa [List.length_replicate])
    refine Outcome.state_andThen hclear fun k1 _ _ hk1 => ?_
    have hcopy : Wrote cfg map rest C k (Pointer.copyArgs cfg map rest buf
        (min (toU32 nbytes).toNat termBuffSize) 0 k1).state := by
      refine hk1.trans (copyArgs_wrote ?_)
      rintro c ⟨m, hm, hc⟩
      rw [hk1.cell] at hc
      exact hcells ⟨m, by omega, hc⟩
    refine Outcome.state_andThen hcopy fun k2 _ _ hk2 => ?_
    split_ifs
    · exact hk2
    · have htrim : Wrote cfg map rest C k (Pointer.trimBlanks cfg map rest buf (2 ^ 32)
          ((toU32 nbytes).toNat - 1) k2).state := by
        refine hk2.trans (trimBlanks_wrote ?_)
        rintro c ⟨j, hgap, hc⟩
        rw [hk2.cell] at hgap hc
        exact hstretch ⟨j, hgap, hc⟩
      refine Outcome.state_andThen htrim fun k3 _ _ hk3 => ?_
      refine Outcome.state_andThen ?_ fun _ _ _ h => h
      rwa [View.loadByte_state]

end BaseOs
