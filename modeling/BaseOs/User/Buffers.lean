import BaseOs.Keyboard.Fetch
import BaseOs.Syscall.Reach
import BaseOs.User.Privacy

set_option autoImplicit false

/-! # Buffers with and without an address

`read` and `getargs` are there twice: with the buffer as a value the call returns changed (`readCall`,
`getargs`), as the programs use them, and with the buffer as an address the call stores through
(`Pointer.read`, `Pointer.getargs`). For a buffer in the program's own page they agree: `read_agrees`,
`getargs_agrees`. -/

namespace BaseOs

open Kernel Cells

variable {cfg : Config} {map : KernelMap} {rest : Bytes} {k k' s : Kernel} {p : Slot} {i : FdIndex}
  {fd : Int} {buf n : Nat} {nbytes : Int} {line b : Bytes}

/-! ## Memory -/

/-- Memory outside the kernel's frame. -/
def memoryCells : Set Cell := {c | ∃ pa, c = .memory pa}

theorem plain_memory : (kernelView cfg map rest).Plain memoryCells where
  store := by
    rintro c ⟨pa, rfl⟩ s b
    exact ⟨_, rfl⟩
  same := by
    rintro c ⟨pa, rfl⟩ s b s' h
    cases h
    exact Function.update_self ..
  other := by
    rintro c ⟨pa, rfl⟩ d ⟨pa', rfl⟩ hne s b s' h
    cases h
    exact Function.update_of_ne (fun heq => hne (congrArg Cell.memory heq)) _ _

/-- The `n` bytes from `buf` on are memory, each at an address of its own. -/
abbrev InMemory (cfg : Config) (map : KernelMap) (rest : Bytes) (k : Kernel) (buf n : Nat) : Prop :=
  (kernelView cfg map rest).Range memoryCells k buf n

/-- The bytes at an address. -/
abbrev Kernel.bytesAt (cfg : Config) (map : KernelMap) (rest : Bytes) (k : Kernel) (buf : Nat) : Bytes :=
  (kernelView cfg map rest).bytes k buf

/-- The kernel `k'` is `s` but for the buffer, which holds `b`. -/
structure BufferHolds (cfg : Config) (map : KernelMap) (rest : Bytes) (buf n : Nat) (b : Bytes) (s k' : Kernel) :
    Prop where
  kernel : k' = { s with mem := k'.mem }
  bytes : ∀ j < n, k'.bytesAt cfg map rest buf j = b j
  others : ∀ pa, Cell.memory pa ∉ (kernelView cfg map rest).cells s buf n → k'.mem pa = s.mem pa

theorem bufferHolds_start : BufferHolds cfg map rest buf n (k.bytesAt cfg map rest buf) k k :=
  ⟨rfl, fun _ _ => rfl, fun _ _ => rfl⟩

theorem BufferHolds.congr {b' : Bytes} (h : BufferHolds cfg map rest buf n b s k') (hb : ∀ j < n, b j = b' j) :
    BufferHolds cfg map rest buf n b' s k' :=
  ⟨h.kernel, fun j hj => (h.bytes j hj).trans (hb j hj), h.others⟩

theorem BufferHolds.paging (h : BufferHolds cfg map rest buf n b s k') : k'.paging = s.paging := by
  rw [h.kernel]

theorem cell_of_paging (h : k'.paging = s.paging) :
    (kernelView cfg map rest).cell k' = (kernelView cfg map rest).cell s := by
  funext va
  change (kernelAddr cfg.lay k'.paging (va % 2 ^ 32)).map (cellAt map) = _
  rw [h]
  rfl

theorem BufferHolds.inMemory (h : BufferHolds cfg map rest buf n b s k') (hin : InMemory cfg map rest s buf n) :
    InMemory cfg map rest k' buf n :=
  hin.of_cell (cell_of_paging h.paging)

/-- Stores into the buffer change memory only. -/
theorem wrote_memory (hin : InMemory cfg map rest s buf n)
    (h : Wrote cfg map rest ((kernelView cfg map rest).cells s buf n) s k') :
    k' = { s with mem := k'.mem } ∧
      ∀ pa, Cell.memory pa ∉ (kernelView cfg map rest).cells s buf n → k'.mem pa = s.mem pa := by
  refine h.preserves (P := fun t => t = { s with mem := t.mem } ∧
    ∀ pa, Cell.memory pa ∉ (kernelView cfg map rest).cells s buf n → t.mem pa = s.mem pa) ?_
    ⟨rfl, fun _ _ => rfl⟩
  rintro t c b t' ⟨j, hj, hc⟩ hstore ⟨hsame, hothers⟩
  obtain ⟨d, ⟨pa, rfl⟩, hd⟩ := hin.mem j hj
  obtain rfl : c = .memory pa := Option.some.inj (hc.symm.trans hd)
  cases hstore
  refine ⟨by rw [hsame], fun pa' hpa' => ?_⟩
  rw [← hothers pa' hpa']
  refine Function.update_of_ne ?_ _ _
  rintro rfl
  exact hpa' ⟨j, hj, hc⟩

/-- What follows from stores into the buffer, after the kernel has been `s`. -/
theorem BufferHolds.wrote {b' : Bytes} (h : BufferHolds cfg map rest buf n b s k) (hin : InMemory cfg map rest s buf n)
    (hwrote : Wrote cfg map rest ((kernelView cfg map rest).cells k buf n) k k')
    (hbytes : ∀ j < n, k'.bytesAt cfg map rest buf j = b' j) : BufferHolds cfg map rest buf n b' s k' := by
  have hcells : (kernelView cfg map rest).cells k buf n = (kernelView cfg map rest).cells s buf n := by
    unfold View.cells
    rw [cell_of_paging h.paging]
  obtain ⟨hsame, hothers⟩ := wrote_memory (h.inMemory hin) hwrote
  refine ⟨?_, hbytes, fun pa hpa => ?_⟩
  · rw [hsame, h.kernel]
  · rw [hothers pa (by rwa [hcells])]
    exact h.others pa hpa

theorem BufferHolds.storeByte {j : Nat} (h : BufferHolds cfg map rest buf n b s k) (hin : InMemory cfg map rest s buf n)
    (hj : j < n) (c : UInt8) : ∃ k', (kernelView cfg map rest).storeByte k (buf + j) c = .done k' () ∧
      BufferHolds cfg map rest buf n (Function.update b j c) s k' := by
  obtain ⟨k', hstore, hwrote, hbytes⟩ := (h.inMemory hin).storeByte plain_memory hj c
  refine ⟨k', hstore, h.wrote hin hwrote fun m hm => ?_⟩
  refine (hbytes m hm).trans ?_
  rcases eq_or_ne m j with rfl | hne
  · rw [Function.update_self, Function.update_self]
  · rw [Function.update_of_ne hne, Function.update_of_ne hne]
    exact h.bytes m hm

theorem BufferHolds.storeBytes {data : List UInt8} (h : BufferHolds cfg map rest buf n b s k)
    (hin : InMemory cfg map rest s buf n) (hle : data.length ≤ n) :
    ∃ k', (kernelView cfg map rest).storeBytes k buf data = .done k' () ∧
      BufferHolds cfg map rest buf n (store b data) s k' := by
  have hle' : 0 + data.length ≤ n := by rwa [Nat.zero_add]
  obtain ⟨k', hstore, hwrote, hbytes⟩ := (h.inMemory hin).storeBytes plain_memory hle'
  refine ⟨k', hstore, h.wrote hin hwrote fun j hj => (hbytes j hj).trans ?_⟩
  rw [if_pos (Nat.zero_le j), Nat.sub_zero, store, ← h.bytes j hj]

theorem BufferHolds.loadByte {j : Nat} (h : BufferHolds cfg map rest buf n b s k) (hin : InMemory cfg map rest s buf n)
    (hj : j < n) : (kernelView cfg map rest).loadByte k (buf + j) = .done k (b j) := by
  rw [(h.inMemory hin).loadByte hj]
  congr 1
  exact h.bytes j hj

/-- Changes outside of memory and the page tables. -/
theorem BufferHolds.aside {f : Kernel → Kernel} (h : BufferHolds cfg map rest buf n b s k')
    (hf : ∀ (s : Kernel) (mem : Bytes), f { s with mem := mem } = { f s with mem := mem })
    (hmem : ∀ s, (f s).mem = s.mem) (hpaging : ∀ s, (f s).paging = s.paging)
    (hin : InMemory cfg map rest s buf n) : BufferHolds cfg map rest buf n b (f s) (f k') where
  kernel := by
    rw [hmem]
    nth_rewrite 1 [h.kernel]
    exact hf s k'.mem
  bytes j hj := by
    obtain ⟨c, ⟨pa, rfl⟩, hc⟩ := (h.inMemory hin).mem j hj
    rw [← h.bytes j hj]
    unfold bytesAt View.bytes
    rw [cell_of_paging (hpaging k'), hc, Option.map_some, Option.map_some, Option.getD_some, Option.getD_some]
    exact congrFun (hmem k') pa
  others pa hpa := by
    rw [hmem, hmem]
    refine h.others pa ?_
    unfold View.cells at hpa ⊢
    rwa [cell_of_paging (hpaging s)] at hpa

theorem BufferHolds.setFdTable (h : BufferHolds cfg map rest buf n b s k')
    (hin : InMemory cfg map rest s buf n) (p : Slot) (table : FdTable) :
    BufferHolds cfg map rest buf n b (s.setFdTable p table) (k'.setFdTable p table) :=
  h.aside (f := fun k => k.setFdTable p table) (fun _ _ => rfl) (fun _ => rfl) (fun _ => rfl) hin

theorem BufferHolds.setRow (h : BufferHolds cfg map rest buf n b s k')
    (hin : InMemory cfg map rest s buf n) (row : Bytes) :
    BufferHolds cfg map rest buf n b (s.setRow row) (k'.setRow row) :=
  h.aside (f := fun k => k.setRow row) (fun _ _ => rfl) (fun _ => rfl) (fun _ => rfl) hin

/-! ## The read routines -/

/-- How a call through an address goes, against the same call with the buffer's bytes as a value. -/
inductive Agrees (cfg : Config) (map : KernelMap) (rest : Bytes) (buf n : Nat) :
    CallOutcome → Option SysResult → Prop
  | back {r : SysResult} {k' : Kernel} (holds : BufferHolds cfg map rest buf n r.buf r.kernel k') :
      Agrees cfg map rest buf n (.done k' r.ret) (some r)
  | wild (k : Kernel) : Agrees cfg map rest buf n (.stopped k .wild) none

theorem fileRead_agrees (hin : InMemory cfg map rest k buf n)
    (hn : Pointer.entryReach cfg ((k.pcb p).fdTable i) nbytes ≤ n)
    (hjump : ((k.pcb p).fdTable i).fdJump = some .filesys) :
    Agrees cfg map rest buf n (Pointer.fileRead cfg map rest k p i buf nbytes)
      (some (fileRead cfg k p i (k.bytesAt cfg map rest buf) nbytes)) := by
  have hlen := readData_length_le cfg.fs ((k.pcb p).fdTable i).inodePtr.toUInt32
    ((k.pcb p).fdTable i).filePosition (toU32 nbytes)
  rw [Pointer.entryReach, hjump] at hn
  obtain ⟨k1, hstore, hholds⟩ := bufferHolds_start.storeBytes hin (hlen.trans hn)
  have hpcb : k1.pcb = k.pcb := by rw [hholds.kernel]
  unfold Pointer.fileRead
  simp only [hstore, Outcome.done_andThen, hpcb]
  refine Agrees.back (r := fileRead cfg k p i (k.bytesAt cfg map rest buf) nbytes) ?_
  unfold fileRead
  simp only
  split_ifs
  · exact hholds.setFdTable hin p _
  · exact hholds

theorem dirRead_agrees (hin : InMemory cfg map rest k buf n)
    (hn : Pointer.entryReach cfg ((k.pcb p).fdTable i) nbytes ≤ n)
    (hjump : ((k.pcb p).fdTable i).fdJump = some .dir) :
    Agrees cfg map rest buf n (Pointer.dirRead cfg map rest k p i buf nbytes)
      (some (dirRead cfg k p i (k.bytesAt cfg map rest buf) nbytes)) := by
  rw [Pointer.entryReach, hjump] at hn
  have hname : min nbytes.toNat maxNameCharacters ≤ n := hn
  unfold Pointer.dirRead dirRead
  simp only
  split_ifs
  · exact .back (r := ⟨k, 0, _⟩) bufferHolds_start
  · set name := (cfg.fs.entries ((k.pcb p).fdTable i).filePosition.toNat).fileName
    set bytesRead := Scan.scan (fun i => name i != 0) 0 (min nbytes.toNat maxNameCharacters)
    have hscan : bytesRead ≤ 0 + min nbytes.toNat maxNameCharacters := (Scan.scan_spec _ _ _).2.1
    have hlen : ((List.range bytesRead).map name).length ≤ n := by
      rw [List.length_map, List.length_range]
      omega
    obtain ⟨k1, hstore, hholds⟩ := bufferHolds_start.storeBytes hin hlen
    have hpcb : k1.pcb = k.pcb := by rw [hholds.kernel]
    simp only [hstore, Outcome.done_andThen, hpcb]
    refine .back (r := ⟨_, _, _⟩) ((hholds.setFdTable hin p _).congr fun j _ => ?_)
    simp only
    by_cases hj : j < bytesRead
    · rw [store_of_lt (by simpa using hj), if_pos hj]
      simp
    · rw [if_neg hj, store, List.getD_eq_default _ _ (by simpa using hj)]

/-- The second loop of `terminal_read` loads each byte of the buffer once. -/
theorem fillRow_done {m j : Nat} (h : BufferHolds cfg map rest buf n b s k) (hin : InMemory cfg map rest s buf n)
    (hn : j + m ≤ n) : ∃ k', Pointer.fillRow cfg map rest buf m j k = .done k' () ∧
      BufferHolds cfg map rest buf n b
        (s.setRow fun x => if j ≤ x ∧ x < j + m then b x else s.saveBuff s.currTerminal x) k' := by
  induction m generalizing s k j with
  | zero =>
      have hrow : (fun x => if j ≤ x ∧ x < j + 0 then b x else s.saveBuff s.currTerminal x)
          = s.saveBuff s.currTerminal := by
        funext x
        rw [if_neg (by omega)]
      rw [hrow, setRow_self]
      exact ⟨k, rfl, h⟩
  | succ m ih =>
      have hrow : k.saveBuff k.currTerminal = s.saveBuff s.currTerminal := by rw [h.kernel]
      unfold Pointer.fillRow
      rw [h.loadByte hin (by omega), Outcome.done_andThen, hrow]
      set row := Function.update (s.saveBuff s.currTerminal) j (b j)
      have hsaved : (s.setRow row).saveBuff (s.setRow row).currTerminal = row := Function.update_self ..
      have hpaging : (s.setRow row).paging = s.paging := rfl
      obtain ⟨k', hfill, hholds⟩ := ih (h.setRow hin row) (hin.of_cell (cell_of_paging hpaging))
        (show j + 1 + m ≤ n by omega)
      rw [setRow_setRow, hsaved] at hholds
      refine ⟨k', hfill, ?_⟩
      have hsame : (fun x => if j + 1 ≤ x ∧ x < j + 1 + m then b x else row x)
          = fun x => if j ≤ x ∧ x < j + (m + 1) then b x else s.saveBuff s.currTerminal x := by
        funext x
        rcases eq_or_ne x j with rfl | hne
        · rw [if_neg (by omega), if_pos (by omega)]
          exact Function.update_self ..
        · have hkept : row x = s.saveBuff s.currTerminal x := Function.update_of_ne hne _ _
          rw [hkept]
          split_ifs <;> first | rfl | omega
      rwa [hsame] at hholds

theorem terminalRead_agrees (hin : InMemory cfg map rest k buf n) (hn : min nbytes.toNat termBuffSize ≤ n) :
    Agrees cfg map rest buf n (Pointer.terminalRead cfg map rest k buf nbytes)
      (some (terminalReadCall k (k.bytesAt cfg map rest buf) nbytes)) := by
  set row := Pointer.cleared (k.saveBuff k.currTerminal) with hrow
  have hsaved : (k.setRow row).saveBuff (k.setRow row).currTerminal = row := Function.update_self ..
  have hpaging : (k.setRow row).paging = k.paging := rfl
  have hstart : BufferHolds cfg map rest buf n (k.bytesAt cfg map rest buf) (k.setRow row) (k.setRow row) :=
    bufferHolds_start.setRow hin row
  obtain ⟨k1, hfill, hholds⟩ := fillRow_done hstart (hin.of_cell (cell_of_paging hpaging))
    (show 0 + min nbytes.toNat termBuffSize ≤ n by omega)
  rw [setRow_setRow, hsaved] at hholds
  unfold Pointer.terminalRead
  rw [hfill, Outcome.done_andThen]
  refine .back (r := terminalReadCall k (k.bytesAt cfg map rest buf) nbytes) ?_
  have hsame : (fun x => if 0 ≤ x ∧ x < 0 + min nbytes.toNat termBuffSize then k.bytesAt cfg map rest buf x
      else row x) = terminalRead (k.saveBuff k.currTerminal) (k.bytesAt cfg map rest buf) nbytes := by
    funext x
    unfold terminalRead
    rw [hrow, Pointer.cleared]
    split_ifs <;> first | rfl | omega
  rw [hsame] at hholds
  exact hholds

/-! ### `keyboard_read` -/

/-- The second loop of `terminal_retrieve` copies up to the NUL, with it, or as far as it goes. -/
theorem copyLine_done {m j cmdCnt last : Nat} {row : Bytes} (h : BufferHolds cfg map rest buf n b s k)
    (hin : InMemory cfg map rest s buf n) (hn : cmdCnt + m ≤ n) (hrow : s.saveBuff s.currTerminal = row)
    (hlast : Scan.scan (fun x => row x != 0) j m = last) :
    ∃ k', Pointer.copyLine cfg map rest buf m j cmdCnt k = .done k' (cmdCnt + (last - j)) ∧
      BufferHolds cfg map rest buf n (fun x =>
        if cmdCnt ≤ x ∧ x < cmdCnt + (last - j) then row (j + (x - cmdCnt))
        else if x = cmdCnt + (last - j) ∧ last < j + m then 0 else b x) s k' := by
  induction m generalizing k j cmdCnt b with
  | zero =>
      obtain rfl : j = last := hlast
      rw [Nat.sub_self]
      exact ⟨k, rfl, h.congr fun x _ => by rw [if_neg (by omega), if_neg (by omega)]⟩
  | succ m ih =>
      have hrowk : k.saveBuff k.currTerminal = row := by rw [← hrow, h.kernel]
      obtain ⟨k1, hstore, hholds⟩ := h.storeByte hin (show cmdCnt < n by omega) (row j)
      have hrow1 : k1.saveBuff k1.currTerminal = row := by rw [← hrow, hholds.kernel]
      unfold Pointer.copyLine
      rw [hrowk, hstore, Outcome.done_andThen, hrow1]
      by_cases hend : row j = 0
      · obtain rfl : j = last := by
          rw [← hlast, Scan.scan]
          simp [hend]
        rw [if_pos hend, Nat.sub_self]
        -- the terminator has been stored with the rest
        refine ⟨k1, rfl, hholds.congr fun x _ => ?_⟩
        rw [if_neg (by omega)]
        rcases eq_or_ne x cmdCnt with rfl | hne
        · rw [if_pos (by omega), Function.update_self, hend]
        · rw [if_neg (by omega), Function.update_of_ne hne]
      · have hnext : Scan.scan (fun x => row x != 0) (j + 1) m = last := by
          rw [← hlast, Scan.scan]
          simp [hend]
        have hge := (Scan.scan_spec (fun x => row x != 0) (j + 1) m).1
        rw [hnext] at hge
        obtain ⟨k', hcopy, hholds'⟩ := ih hholds (show cmdCnt + 1 + m ≤ n by omega) hnext
        have hcount : cmdCnt + 1 + (last - (j + 1)) = cmdCnt + (last - j) := by omega
        rw [hcount] at hcopy hholds'
        rw [if_neg hend]
        refine ⟨k', hcopy, hholds'.congr fun x _ => ?_⟩
        rcases Nat.lt_trichotomy x cmdCnt with hlt | rfl | hgt
        · rw [if_neg (by omega), if_neg (by omega), if_neg (by omega), if_neg (by omega),
            Function.update_of_ne hlt.ne]
        · rw [if_neg (by omega), if_neg (by omega), if_pos (by omega), Function.update_self, Nat.sub_self,
            Nat.add_zero]
        · have hindex : j + 1 + (x - (cmdCnt + 1)) = j + (x - cmdCnt) := by omega
          rw [hindex, Function.update_of_ne hgt.ne']
          split_ifs <;> first | rfl | omega

theorem beginsWith_done {cs : List UInt8} {j : Nat} (h : BufferHolds cfg map rest buf n b s k)
    (hin : InMemory cfg map rest s buf n) (hn : j + cs.length ≤ n) :
    ∃ same, Pointer.beginsWith cfg map rest buf cs j k = .done k same ∧
      (same = true ↔ ∀ x < cs.length, b (j + x) = cs.getD x 0) := by
  induction cs generalizing j with
  | nil => exact ⟨true, rfl, by simp⟩
  | cons c cs ih =>
      rw [List.length_cons] at hn
      unfold Pointer.beginsWith
      rw [h.loadByte hin (by omega), Outcome.done_andThen]
      by_cases hc : b j = c
      · obtain ⟨same, hsame, hiff⟩ := ih (show j + 1 + cs.length ≤ n by omega)
        rw [if_pos hc]
        refine ⟨same, hsame, hiff.trans ⟨fun hall x hx => ?_, fun hall x hx => ?_⟩⟩
        · cases x with
          | zero => exact hc
          | succ x =>
              rw [List.length_cons] at hx
              rw [List.getD_cons_succ, Nat.add_comm x 1, ← Nat.add_assoc]
              exact hall x (by omega)
        · have hnext := hall (x + 1) (by rw [List.length_cons]; omega)
          rwa [List.getD_cons_succ, Nat.add_comm x 1, ← Nat.add_assoc] at hnext
      · rw [if_neg hc]
        refine ⟨false, rfl, iff_of_false Bool.false_ne_true fun hall => hc ?_⟩
        exact hall 0 (by simp)

/-- The end of `keyboard_read`. -/
theorem newline_done {count : Nat} (h : BufferHolds cfg map rest buf n b s k) (hin : InMemory cfg map rest s buf n)
    (hfour : 4 ≤ n) (hcount : count < n) :
    ∃ k', Pointer.newline cfg map rest k buf count
        = .done k' (toRet (if strncmp b (cstr (ascii "exit")) 4 ≠ 0 then count + 1 else count)) ∧
      BufferHolds cfg map rest buf n
        (if strncmp b (cstr (ascii "exit")) 4 ≠ 0 then Function.update b count 10 else b) s k' := by
  have hexit : (ascii "exit").length = 4 := by decide
  obtain ⟨same, hbegins, hiff⟩ := beginsWith_done h hin (show 0 + (ascii "exit").length ≤ n by omega)
  have hword : same = true ↔ strncmp b (cstr (ascii "exit")) 4 = 0 := by
    rw [hiff, strncmp_exit_iff, hexit]
    refine forall₂_congr fun x hx => ?_
    rw [Nat.zero_add]
    rfl
  unfold Pointer.newline
  rw [hbegins, Outcome.done_andThen]
  by_cases hsame : same = true
  · have hzero := hword.1 hsame
    rw [if_pos hsame, if_neg (not_not_intro hzero), if_neg (not_not_intro hzero)]
    exact ⟨k, rfl, h⟩
  · have hzero : strncmp b (cstr (ascii "exit")) 4 ≠ 0 := fun heq => hsame (hword.2 heq)
    obtain ⟨k', hstore, hholds⟩ := h.storeByte hin hcount 10
    rw [if_neg hsame, if_pos hzero, if_pos hzero, hstore, Outcome.done_andThen]
    exact ⟨k', rfl, hholds⟩

theorem keyboardRead_agrees (hin : InMemory cfg map rest k buf n) (hfour : 4 ≤ n)
    (hn : min nbytes.toNat termBuffSize + 1 ≤ n) :
    Agrees cfg map rest buf n (Pointer.keyboardRead cfg map rest k buf nbytes line)
      (some (keyboardRead k (k.bytesAt cfg map rest buf) nbytes line)) := by
  have hstart : BufferHolds cfg map rest buf n (k.bytesAt cfg map rest buf) (k.released line) (k.released line) :=
    bufferHolds_start.aside (f := fun k => k.released line) (fun _ _ => rfl) (fun _ => rfl) (fun _ => rfl) hin
  have hpaging : (k.released line).paging = k.paging := rfl
  have hin' : InMemory cfg map rest (k.released line) buf n := hin.of_cell (cell_of_paging hpaging)
  have hrow : (k.released line).saveBuff (k.released line).currTerminal = line := Function.update_self ..
  set first := Scan.scan (fun i => line i == 32) 0 (min nbytes.toNat termBuffSize) with hfirst
  have hfirstle : first ≤ 0 + min nbytes.toNat termBuffSize := (Scan.scan_spec _ _ _).2.1
  set last := Scan.scan (fun i => line i != 0) first (min nbytes.toNat (termBuffSize - first)) with hlast
  obtain ⟨hfl, hle, -, -⟩ := Scan.scan_spec (fun i => line i != 0) first (min nbytes.toNat (termBuffSize - first))
  rw [← hlast] at hfl hle
  -- the loop of `terminal_retrieve`
  obtain ⟨k1, hcopy, hholds⟩ := copyLine_done hstart hin'
    (show 0 + min nbytes.toNat (termBuffSize - first) ≤ n by omega) hrow hlast.symm
  rw [Nat.zero_add] at hcopy hholds
  have hretrieve : terminalRetrieve line (k.bytesAt cfg map rest buf) nbytes = (last - first, fun x =>
      if x < last - first then line (first + x)
      else if x = last - first ∧ last - first < nbytes.toNat ∧ last < termBuffSize then 0
      else k.bytesAt cfg map rest buf x) := rfl
  have hholds1 : BufferHolds cfg map rest buf n (terminalRetrieve line (k.bytesAt cfg map rest buf) nbytes).2
      (k.released line) k1 := by
    refine hholds.congr fun x _ => ?_
    rw [hretrieve]
    simp only [Nat.zero_le, true_and, Nat.sub_zero]
    split_ifs <;> first | rfl | omega
  -- then `strncmp` looks at the first four bytes, and the newline is stored
  obtain ⟨k', hnewline, hholds'⟩ := newline_done hholds1 hin' hfour (show last - first < n by omega)
  have hcall : Pointer.keyboardRead cfg map rest k buf nbytes line
      = .done k' (keyboardRead k (k.bytesAt cfg map rest buf) nbytes line).ret := by
    unfold Pointer.keyboardRead
    change (Pointer.copyLine cfg map rest buf (min nbytes.toNat (termBuffSize - first)) first 0
      (k.released line)).andThen _ = _
    rw [hcopy, Outcome.done_andThen, hnewline]
    congr 1
    unfold keyboardRead keyboardReadFetch
    rw [hretrieve]
    simp only
    split_ifs <;> rfl
  rw [hcall]
  refine .back ?_
  have hbuf : (keyboardRead k (k.bytesAt cfg map rest buf) nbytes line).buf
      = if strncmp (terminalRetrieve line (k.bytesAt cfg map rest buf) nbytes).2 (cstr (ascii "exit")) 4 ≠ 0
        then Function.update (terminalRetrieve line (k.bytesAt cfg map rest buf) nbytes).2 (last - first) 10
        else (terminalRetrieve line (k.bytesAt cfg map rest buf) nbytes).2 := by
    unfold keyboardRead keyboardReadFetch
    rw [hretrieve]
    simp only
    split_ifs <;> rfl
  rw [hbuf]
  exact hholds'

/-! ## `read` -/

/-- All bytes of the buffer a `read` looks at or stores into: `strncmp` looks at four, whatever the length
    is. -/
def touched (cfg : Config) (k : Kernel) (fd nbytes : Int) : Nat :=
  max (Pointer.reach cfg k fd nbytes) (max 4 (min nbytes.toNat termBuffSize))

/-- A `read` into memory is the `read` with the buffer as a value. The buffer must not be on the screen, as
    a refused call prints. -/
theorem read_agrees (hin : InMemory cfg map rest k buf n) (hnull : buf ≠ 0) (hn : touched cfg k fd nbytes ≤ n)
    (hdark : ∀ text, ∀ j < n, (k.printf text).bytesAt cfg map rest buf j = k.bytesAt cfg map rest buf j) :
    Agrees cfg map rest buf n (Pointer.read cfg map rest k fd buf nbytes line)
      (readCall cfg k fd (some (k.bytesAt cfg map rest buf)) nbytes line) := by
  have hrefused : ∀ text, Agrees cfg map rest buf n (.done (k.printf text) (-1))
      (some ⟨k.printf text, -1, k.bytesAt cfg map rest buf⟩) := fun text =>
    .back (r := ⟨k.printf text, -1, k.bytesAt cfg map rest buf⟩) ⟨rfl, hdark text, fun _ _ => rfl⟩
  unfold touched at hn
  unfold Pointer.read readCall
  cases hi : fdIndex? fd with
  | none => exact hrefused _
  | some i =>
      cases hp : k.currentPcb? with
      | none => exact .wild k
      | some p =>
          rw [reach_eq hp hi] at hn
          simp only [if_neg hnull]
          split_ifs
          · cases hjump : ((k.pcb p).fdTable i).fdJump with
            | none => exact .wild k
            | some table =>
                cases table with
                | wild address => exact .wild k
                | rtc =>
                    exact .back (r := rtcRead k (k.bytesAt cfg map rest buf))
                      (bufferHolds_start.aside (f := fun k => (rtcRead k emptyBuf).kernel) (fun _ _ => rfl)
                        (fun _ => rfl) (fun _ => rfl) hin)
                | filesys => exact fileRead_agrees hin (by omega) hjump
                | dir => exact dirRead_agrees hin (by omega) hjump
                | term => exact terminalRead_agrees hin (by omega)
                | kybd =>
                    have hreach : min nbytes.toNat termBuffSize + 1 ≤ n := by
                      rw [Pointer.entryReach, hjump] at hn
                      exact (le_max_left _ _).trans hn
                    exact keyboardRead_agrees hin (by omega) hreach
          · exact hrefused _

/-! ## `getargs` -/

theorem copyArgs_done {m j : Nat} (h : BufferHolds cfg map rest buf n b s k) (hin : InMemory cfg map rest s buf n)
    (hp : s.currentPcb? = some p) (hn : j + m ≤ n) :
    ∃ k', Pointer.copyArgs cfg map rest buf m j k = .done k' () ∧
      BufferHolds cfg map rest buf n (fun x => if j ≤ x ∧ x < j + m then (s.pcb p).args x else b x) s k' := by
  induction m generalizing k j b with
  | zero => exact ⟨k, rfl, h.congr fun x _ => by rw [if_neg (by omega)]⟩
  | succ m ih =>
      have hpk : k.currentPcb? = some p := by
        rw [h.kernel]
        exact hp
      have hargs : (k.pcb p).args = (s.pcb p).args := by rw [h.kernel]
      obtain ⟨k1, hstore, hholds⟩ := h.storeByte hin (show j < n by omega) ((s.pcb p).args j)
      obtain ⟨k', hcopy, hholds'⟩ := ih hholds (show j + 1 + m ≤ n by omega)
      unfold Pointer.copyArgs
      simp only [hpk, hargs, hstore, Outcome.done_andThen]
      refine ⟨k', hcopy, hholds'.congr fun x _ => ?_⟩
      rcases eq_or_ne x j with rfl | hne
      · rw [if_neg (by omega), if_pos (by omega), Function.update_self]
      · rw [Function.update_of_ne hne]
        split_ifs <;> first | rfl | omega

/-- The trimming loop, when there is something in the buffer that stops it. -/
theorem trimBlanks_done {rounds m : Nat} (h : BufferHolds cfg map rest buf n b s k)
    (hin : InMemory cfg map rest s buf n) (hm : m < n) (hrounds : m < rounds)
    (hword : ∃ j ≤ m, b j ≠ 32 ∧ b j ≠ 0) :
    ∃ k', Pointer.trimBlanks cfg map rest buf rounds m k = .done k' () ∧
      BufferHolds cfg map rest buf n (trimBlanks b (m + 1)) s k' := by
  induction m generalizing k b rounds with
  | zero =>
      obtain ⟨j, hj, hblank⟩ := hword
      obtain rfl : j = 0 := Nat.le_zero.1 hj
      obtain ⟨rounds, rfl⟩ := Nat.exists_eq_succ_of_ne_zero hrounds.ne'
      have hno : ¬ (b 0 = 32 ∨ b 0 = 0) := fun heq => heq.elim hblank.1 hblank.2
      unfold Pointer.trimBlanks trimBlanks
      rw [h.loadByte hin hm, Outcome.done_andThen, if_neg hno, if_neg hno]
      exact ⟨k, rfl, h⟩
  | succ m ih =>
      obtain ⟨rounds, rfl⟩ := Nat.exists_eq_succ_of_ne_zero (Nat.ne_of_gt (Nat.zero_lt_of_lt hrounds))
      unfold Pointer.trimBlanks
      rw [h.loadByte hin hm, Outcome.done_andThen, trimBlanks]
      split_ifs with hblank
      · obtain ⟨k1, hstore, hholds⟩ := h.storeByte hin hm 0
        obtain ⟨j, hj, hne⟩ := hword
        have hjm : j ≠ m + 1 := by
          rintro rfl
          exact hblank.elim hne.1 hne.2
        have hpred : Pointer.backwardsPred (m + 1) = m := by
          rw [Pointer.backwardsPred, if_neg (Nat.succ_ne_zero m), Nat.add_sub_cancel]
        rw [hstore, Outcome.done_andThen, hpred]
        refine ih hholds (by omega) (by omega) ⟨j, by omega, ?_⟩
        rwa [Function.update_of_ne hjm]
      · exact ⟨k, rfl, h⟩

/-- With arguments that are all blanks the trimming loop goes on below the buffer. -/
def HasWord (k : Kernel) : Prop :=
  ∀ p, k.currentPcb? = some p → ∃ j < termBuffSize, (k.pcb p).args j ≠ 32 ∧ (k.pcb p).args j ≠ 0

/-- A `getargs` into memory is the `getargs` with the buffer as a value, if it does not come to the
    trimming loop or the loop ends in the buffer. -/
theorem getargs_agrees (hin : InMemory cfg map rest k buf n) (hnull : buf ≠ 0) (hn : (toU32 nbytes).toNat ≤ n)
    (hword : termBuffSize < (toU32 nbytes).toNat → HasWord k) :
    Agrees cfg map rest buf n (Pointer.getargs cfg map rest k buf nbytes)
      (getargs k (some (k.bytesAt cfg map rest buf)) nbytes) := by
  have hmax := (toU32 nbytes).toNat_lt
  unfold Pointer.getargs getargs
  simp only [if_neg hnull]
  set len := (toU32 nbytes).toNat
  have hlen : (List.replicate len (0 : UInt8)).length ≤ n := by rwa [List.length_replicate]
  -- the buffer is cleared first
  obtain ⟨k1, hclear, hholds⟩ := bufferHolds_start.storeBytes hin hlen
  rw [hclear, Outcome.done_andThen]
  by_cases hzero : len = 0
  · rw [hzero] at hholds ⊢
    simp only [Nat.zero_min, if_true, Pointer.copyArgs, Outcome.done_andThen]
    exact .back (r := ⟨k, -1, k.bytesAt cfg map rest buf⟩) hholds
  rw [if_neg hzero]
  cases hp : k.currentPcb? with
  | none =>
      obtain ⟨m, hm⟩ := Nat.exists_eq_succ_of_ne_zero (show min len termBuffSize ≠ 0 by
        have hterm : termBuffSize = 128 := rfl
        omega)
      have hp1 : k1.currentPcb? = none := by
        rw [hholds.kernel]
        exact hp
      rw [hm]
      simp only [Pointer.copyArgs, hp1]
      exact .wild k1
  | some p =>
      obtain ⟨k2, hcopy, hholds2⟩ := copyArgs_done hholds hin hp (show 0 + min len termBuffSize ≤ n by omega)
      have hcopied : BufferHolds cfg map rest buf n
          (copyArgs (k.pcb p).args (k.bytesAt cfg map rest buf) len) k k2 := by
        -- behind the arguments there are the NULs of the clearing
        refine hholds2.congr fun x _ => ?_
        unfold copyArgs
        by_cases hx : x < len
        · have hzeroes : store (k.bytesAt cfg map rest buf) (List.replicate len 0) x = 0 := by
            rw [store_of_lt (by simpa using hx), List.getElem_replicate]
          rw [hzeroes]
          split_ifs <;> first | rfl | omega
        · have hkept : store (k.bytesAt cfg map rest buf) (List.replicate len 0) x
              = k.bytesAt cfg map rest buf x := by
            rw [store, List.getD_eq_default _ _ (by simpa using hx)]
          rw [hkept]
          split_ifs <;> first | rfl | omega
      rw [hcopy, Outcome.done_andThen]
      simp only
      by_cases hfull : min len termBuffSize = len
      · rw [if_pos hfull, if_pos hfull]
        exact .back (r := ⟨k, -1, _⟩) hcopied
      · rw [if_neg hfull, if_neg hfull]
        -- a character that is no blank stops the trimming inside the buffer
        obtain ⟨j, hj, hne⟩ := hword (by omega) p hp
        have hsame : copyArgs (k.pcb p).args (k.bytesAt cfg map rest buf) len j = (k.pcb p).args j := by
          rw [copyArgs, if_pos (by omega)]
        obtain ⟨k3, htrim, hholds3⟩ := trimBlanks_done hcopied hin (show len - 1 < n by omega)
          (show len - 1 < 2 ^ 32 by omega) ⟨j, by omega, by rwa [hsame]⟩
        rw [Nat.sub_add_cancel (by omega)] at hholds3
        have hfirst := hholds3.loadByte hin (show 0 < n by omega)
        rw [Nat.add_zero] at hfirst
        rw [htrim, Outcome.done_andThen, hfirst, Outcome.done_andThen]
        split_ifs
        · exact .back (r := ⟨k, -1, _⟩) hholds3
        · exact .back (r := ⟨k, 0, _⟩) hholds3

/-! ## The program's page -/

/-- The page the running program lies in is memory. -/
theorem inMemory_program (hentry : k.paging.pageDirectory processIdx = processEntry p) (hlo : programPage ≤ buf)
    (hhi : buf + n ≤ programPage + userPageSize) : InMemory cfg map rest k buf n := by
  have hcell : ∀ j < n, (kernelView cfg map rest).cell k (buf + j)
      = some (.memory (programMemory + userPageSize * p.val + (buf + j - programPage))) := fun j hj =>
    cell_program hentry (by omega) (by omega)
  refine ⟨fun j hj => ⟨_, ⟨_, rfl⟩, hcell j hj⟩, fun j hj m hm heq => ?_⟩
  rw [hcell j hj, hcell m hm] at heq
  have hphys := Cell.memory.inj (Option.some.inj heq)
  omega

theorem printf_loadCell (hk : k.CursorsOk) (text : List UInt8) {pa : Nat} (h : InFrame p pa) :
    (kernelView cfg map rest).load (k.printf text) (.memory pa)
      = (kernelView cfg map rest).load k (.memory pa) :=
  printf_sameFrame hk text p pa h

/-- What the kernel prints does not change the program's page. -/
theorem printf_bytesAt (hentry : k.paging.pageDirectory processIdx = processEntry p) (hk : k.CursorsOk)
    (hlo : programPage ≤ buf) (hhi : buf + n ≤ programPage + userPageSize) (text : List UInt8) :
    ∀ j < n, (k.printf text).bytesAt cfg map rest buf j = k.bytesAt cfg map rest buf j := by
  intro j hj
  have hpaging : (k.printf text).paging = k.paging := rfl
  have hinside : InFrame p (programMemory + userPageSize * p.val + (buf + j - programPage)) := by
    unfold InFrame userPageSize at *
    omega
  unfold bytesAt View.bytes
  rw [cell_of_paging hpaging, cell_program hentry (by omega) (by omega), Option.map_some, Option.map_some,
    printf_loadCell hk text hinside]

/-- The static cursors and `user_page_table` are zero when the kernel is loaded. After anything that can have
    happened since boot, a `read` or a `getargs` into the program's page is the call with the buffer as a
    value. -/
theorem buffers_refine {machine k0 : Kernel} {loc0 : Locals} {entryPoint : UInt32} {events : List KernelEvent}
    (hzero : ∀ t, machine.screenX t = 0 ∧ machine.screenY t = 0)
    (hpages : ∀ i < 1024, machine.paging.userPageTable i = 0)
    (hboot : boot cfg machine loc0 = .started k0 entryPoint)
    (hrun : Runs.run (Kernel.after cfg map) k0 events = some k) (hlo : programPage ≤ buf) :
    (∀ fd nbytes line, buf + touched cfg k fd nbytes ≤ programPage + userPageSize →
      Agrees cfg map rest buf (touched cfg k fd nbytes) (Pointer.read cfg map rest k fd buf nbytes line)
        (readCall cfg k fd (some (k.bytesAt cfg map rest buf)) nbytes line)) ∧
    ∀ nbytes, buf + (toU32 nbytes).toNat ≤ programPage + userPageSize →
      (termBuffSize < (toU32 nbytes).toNat → HasWord k) →
      Agrees cfg map rest buf (toU32 nbytes).toNat (Pointer.getargs cfg map rest k buf nbytes)
        (getargs k (some (k.bytesAt cfg map rest buf)) nbytes) := by
  have hwalled := runEvents_walled hzero hpages hboot hrun
  obtain ⟨p, hentry⟩ := hwalled.display.mapped
  have hnull : buf ≠ 0 := by
    unfold programPage at hlo
    omega
  constructor
  · intro fd nbytes line hhi
    exact read_agrees (inMemory_program hentry hlo hhi) hnull le_rfl
      (printf_bytesAt hentry hwalled.display.cursors hlo hhi)
  · intro nbytes hhi hword
    exact getargs_agrees (inMemory_program hentry hlo hhi) hnull le_rfl hword

/-- The first shell reads a line into the start of its page, and asks for arguments it does not get. -/
theorem buffers_refine_small :
    Agrees smallConfig smallMap emptyBuf programPage (touched smallConfig smallBooted 0 8)
        (Pointer.read smallConfig smallMap emptyBuf smallBooted 0 programPage 8 emptyBuf)
        (readCall smallConfig smallBooted 0
          (some (smallBooted.bytesAt smallConfig smallMap emptyBuf programPage)) 8 emptyBuf) ∧
      Agrees smallConfig smallMap emptyBuf programPage 10
        (Pointer.getargs smallConfig smallMap emptyBuf smallBooted programPage 10)
        (getargs smallBooted (some (smallBooted.bytesAt smallConfig smallMap emptyBuf programPage)) 10) := by
  obtain ⟨entryPoint, hboot, -⟩ := smallBooted_spec
  obtain ⟨hp, htable⟩ := smallBooted_running
  have htouched : touched smallConfig smallBooted 0 8 = 9 := by
    unfold touched
    rw [reach_eq hp (i := 0) rfl, htable]
    rfl
  have hrefine := @buffers_refine smallConfig smallMap emptyBuf smallBooted programPage smallMachine _ _ _ []
    (fun _ => ⟨rfl, rfl⟩) (fun _ _ => rfl) hboot rfl le_rfl
  exact ⟨hrefine.1 0 8 emptyBuf (by rw [htouched]; decide),
    hrefine.2 10 (by decide) fun hlong => absurd hlong (by decide)⟩

end BaseOs
