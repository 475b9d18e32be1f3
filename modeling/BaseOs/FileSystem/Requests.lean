import BaseOs.Process.Execute

set_option autoImplicit false

/-! # Requests `read_data` answers properly

Three properties of the function: a proper file is read exactly, a read stops at the first bad block,
and the block loop stays inside the inode. Each has a gap, and the theorems say exactly which requests
fall into it: an end that wraps around (`readData_exact_iff`), a block number that is `D` itself
(`readData_stopsAtBad_iff`), a file of the largest size read to its end (`readData_staysInside_iff`).
The last section says which requests fail. -/

namespace BaseOs

variable {fs : FileSystem} {inode : UInt32}

/-! ## Exact answers -/

/-- The number of bytes a request is for: what is left of the file, at most `length`. -/
def bytesFor (fs : FileSystem) (inode offset length : UInt32) : Nat :=
  if offset.toNat < fileSize fs inode then min length.toNat (fileSize fs inode - offset.toNat) else 0

/-- A request is answered exactly: the number of bytes it is for is returned, these bytes of the file
    are stored at the start of the buffer, and the rest of the buffer is as it was. -/
structure ExactRead (fs : FileSystem) (inode offset length : UInt32) : Prop where
  ret : (readData fs inode offset length).ret = toRet (bytesFor fs inode offset length)
  stored : ∀ buf i, store buf (readData fs inode offset length).data i =
    if i < bytesFor fs inode offset length then fileByte fs inode (offset.toNat + i) else buf i

theorem store_fileSlice (buf : Bytes) (off n i : Nat) :
    store buf (fileSlice fs inode off n) i
      = if i < n then fileByte fs inode (off + i) else buf i := by
  unfold store fileSlice
  split_ifs with hi
  · simp [hi]
  · rw [List.getD_eq_default _ _ (by simpa using hi)]

/-- A proper file is read exactly unless the request begins inside the file and its end wraps around. -/
theorem readData_exact_iff (hfile : WellFormedFile fs inode) (offset length : UInt32) :
    ExactRead fs inode offset length ↔
      fileSize fs inode ≤ offset.toNat ∨ offset.toNat + length.toNat < 2 ^ 32 := by
  have hsize := hfile.size_le
  unfold maxInodeDataBlocks maxCharsInData at hsize
  constructor
  · rintro ⟨hret, -⟩
    by_contra hnot
    push Not at hnot
    obtain ⟨hoff, hwrap⟩ := hnot
    have hlen := length.toNat_lt
    -- the loop ends before the first byte, but there are bytes to read
    rw [readData_of_lt hfile.inode_lt hoff (fun h => by subst h; simp at hwrap; omega),
      endSearch_of_wrap hoff hwrap] at hret
    have hcount : bytesFor fs inode offset length = fileSize fs inode - offset.toNat := by
      unfold bytesFor
      rw [if_pos hoff]
      omega
    rw [hcount] at hret
    simp only [readUpTo] at hret
    split_ifs at hret
    · have hneg := toRet_eq_neg_one.1 hret.symm
      omega
    · have heq := toRet_inj.1 hret
      omega
  · intro hcond
    have hread : readData fs inode offset length
        = ⟨toRet (bytesFor fs inode offset length),
            fileSlice fs inode offset.toNat (bytesFor fs inode offset length)⟩ := by
      unfold bytesFor
      rcases hcond with hoff | hwrap
      · rw [readData_of_none hfile.inode_lt (Or.inl hoff), if_neg (by omega)]
        rfl
      · rw [readData_of_noWrap hfile hwrap]
        split_ifs with hoff
        · rfl
        · rw [Nat.sub_eq_zero_of_le (by omega), Nat.min_zero]
    exact ⟨by rw [hread], fun buf i => by rw [hread]; exact store_fileSlice buf _ _ i⟩

/-- The text file of the small machine, all of it. -/
theorem readData_exact_note : ExactRead smallConfig.fs 1 0 100 :=
  (readData_exact_iff note_wellFormed 0 100).2 (Or.inr (by decide))

/-- A read with `nbytes = -1` from the second byte on: it returns 0 where three bytes are left. -/
theorem readData_not_exact :
    ¬ ∀ (fs : FileSystem) (inode offset length : UInt32), WellFormedFile fs inode →
      ExactRead fs inode offset length := by
  intro hall
  have hret := (hall smallConfig.fs 1 1 0xFFFFFFFF note_wellFormed).ret
  revert hret
  decide

/-! ## What a read looks at -/

/-- One read of the block loop from the image: a slot of the inode's block table, or a byte of a data
    block. -/
inductive Access
  | slot (b : Nat)
  | byte (block : UInt32) (i : Nat)
  deriving DecidableEq

/-- `readBlocks`, with the accesses it makes in order. -/
def readBlocksLog (fs : FileSystem) (inode : UInt32) (endBlock endOffset : Nat) :
    Nat → Nat → Nat → List UInt8 → ReadResult × List Access
  | 0, _, _, acc => (⟨toRet acc.length, acc⟩, [])
  | fuel + 1, blockLoop, currByte, acc =>
    let currDataBlock := (fs.inodes inode.toNat).datablockIdx blockLoop
    if currDataBlock > fs.numDataBlocks then
      (if acc.length = 0 then ⟨-1, acc⟩ else ⟨toRet acc.length, acc⟩, [.slot blockLoop])
    else
      let endOfBlockByte := if blockLoop = endBlock then endOffset else maxCharsInData
      let bytes := (List.range' currByte (endOfBlockByte - currByte)).map (Access.byte currDataBlock)
      let rest := readBlocksLog fs inode endBlock endOffset fuel (blockLoop + 1) 0
        (acc ++ blockBytes fs currDataBlock currByte endOfBlockByte)
      (rest.1, .slot blockLoop :: bytes ++ rest.2)

/-- `readData`, with the accesses of its block loop. -/
def readDataLog (fs : FileSystem) (inode offset length : UInt32) : ReadResult × List Access :=
  if inode ≥ fs.numInodes then (⟨-1, []⟩, [])
  else
    let thisFileSize := (fs.inodes inode.toNat).fileSize
    if offset ≥ thisFileSize ∨ length = 0 then (⟨0, []⟩, [])
    else
      let startBlock := offset.toNat / maxCharsInData
      let startOffset := offset.toNat % maxCharsInData
      let stop := endSearch thisFileSize offset length
      let endBlock := stop / maxCharsInData
      let endOffset := stop % maxCharsInData
      readBlocksLog fs inode endBlock endOffset (endBlock + 1 - startBlock) startBlock startOffset []

/-- The accesses a read makes. -/
def accesses (fs : FileSystem) (inode offset length : UInt32) : List Access :=
  (readDataLog fs inode offset length).2

theorem readBlocksLog_fst (fs : FileSystem) (inode : UInt32) (endBlock endOffset fuel blockLoop
    currByte : Nat) (acc : List UInt8) :
    (readBlocksLog fs inode endBlock endOffset fuel blockLoop currByte acc).1
      = readBlocks fs inode endBlock endOffset fuel blockLoop currByte acc := by
  induction fuel generalizing blockLoop currByte acc with
  | zero => rfl
  | succ fuel ih =>
      rw [readBlocksLog, readBlocks]
      split_ifs
      · rfl
      · rfl
      all_goals exact ih _ _ _

/-- Recording the accesses changes nothing. -/
theorem readDataLog_fst (fs : FileSystem) (inode offset length : UInt32) :
    (readDataLog fs inode offset length).1 = readData fs inode offset length := by
  unfold readDataLog readData
  simp only
  split_ifs
  · rfl
  · rfl
  · exact readBlocksLog_fst ..

/-- The slots the loop looks at: up to the one where it stops. -/
theorem slot_mem_readBlocksLog {endBlock endOffset b : Nat} (fuel blockLoop currByte : Nat)
    (acc : List UInt8) :
    .slot b ∈ (readBlocksLog fs inode endBlock endOffset fuel blockLoop currByte acc).2 ↔
      blockLoop ≤ b ∧ b < blockLoop + fuel ∧ b ≤ Scan.scan (acceptsSlot fs inode) blockLoop fuel := by
  induction fuel generalizing blockLoop currByte acc with
  | zero =>
      simp only [readBlocksLog, List.not_mem_nil, false_iff]
      omega
  | succ fuel ih =>
      rw [readBlocksLog, Scan.scan]
      by_cases hgood : acceptsSlot fs inode blockLoop = true
      · have hscan := (Scan.scan_spec (acceptsSlot fs inode) (blockLoop + 1) fuel).1
        rw [if_neg (UInt32.not_lt.2 (acceptsSlot_iff.1 hgood)), if_pos hgood]
        simp only [List.cons_append, List.mem_cons, List.mem_append, List.mem_map, Access.slot.injEq,
          reduceCtorEq, and_false, exists_false, false_or, ih]
        omega
      · have hbad : (fs.inodes inode.toNat).datablockIdx blockLoop > fs.numDataBlocks :=
          UInt32.not_le.1 (mt acceptsSlot_iff.2 hgood)
        rw [if_pos hbad, if_neg hgood]
        simp only [List.mem_singleton, Access.slot.injEq]
        omega

/-- The bytes the loop copies lie in blocks it has accepted, before the end of the range. -/
theorem byte_mem_readBlocksLog {stop i : Nat} {d : UInt32} (fuel blockLoop currByte : Nat)
    (acc : List UInt8) (hfuel : blockLoop + fuel ≤ stop / maxCharsInData + 1)
    (h : .byte d i ∈ (readBlocksLog fs inode (stop / maxCharsInData) (stop % maxCharsInData) fuel
      blockLoop currByte acc).2) :
    ∃ b, blockLoop ≤ b ∧ b < Scan.scan (acceptsSlot fs inode) blockLoop fuel ∧
      d = (fs.inodes inode.toNat).datablockIdx b ∧ b * maxCharsInData + i < stop := by
  induction fuel generalizing blockLoop currByte acc with
  | zero => simp [readBlocksLog] at h
  | succ fuel ih =>
      rw [readBlocksLog] at h
      rw [Scan.scan]
      by_cases hgood : acceptsSlot fs inode blockLoop = true
      · rw [if_neg (UInt32.not_lt.2 (acceptsSlot_iff.1 hgood))] at h
        simp only [List.cons_append, List.mem_cons, reduceCtorEq, List.mem_append, List.mem_map,
          false_or, Access.byte.injEq] at h
        rw [if_pos hgood]
        rcases h with ⟨j, hj, rfl, rfl⟩ | hrest
        · have hin : j < innerEnd stop blockLoop := by
            have hrange := List.mem_range'_1.1 hj
            unfold innerEnd
            omega
          have hend := (innerEnd_spec (show blockLoop ≤ stop / maxCharsInData by omega)).2
          have hscan := (Scan.scan_spec (acceptsSlot fs inode) (blockLoop + 1) fuel).1
          exact ⟨blockLoop, le_rfl, by omega, rfl, by omega⟩
        · obtain ⟨b, hb, hrest⟩ := ih _ _ _ (by omega) hrest
          exact ⟨b, by omega, hrest⟩
      · have hbad : (fs.inodes inode.toNat).datablockIdx blockLoop > fs.numDataBlocks :=
          UInt32.not_le.1 (mt acceptsSlot_iff.2 hgood)
        rw [if_pos hbad] at h
        simp at h

theorem accesses_of_lt (hinode : inode < fs.numInodes) {offset length : UInt32}
    (hoff : offset.toNat < fileSize fs inode) (hlen : length ≠ 0) :
    accesses fs inode offset length =
      (readBlocksLog fs inode
        (endSearch (fs.inodes inode.toNat).fileSize offset length / maxCharsInData)
        (endSearch (fs.inodes inode.toNat).fileSize offset length % maxCharsInData)
        (endSearch (fs.inodes inode.toNat).fileSize offset length / maxCharsInData + 1
          - offset.toNat / maxCharsInData)
        (offset.toNat / maxCharsInData) (offset.toNat % maxCharsInData) []).2 := by
  have hoff' : ¬ offset ≥ (fs.inodes inode.toNat).fileSize :=
    UInt32.not_le.2 (UInt32.lt_iff_toNat_lt.2 hoff)
  unfold accesses readDataLog
  rw [if_neg (UInt32.not_le.2 hinode)]
  simp only [if_neg (show ¬ (offset ≥ (fs.inodes inode.toNat).fileSize ∨ length = 0) from
    fun h => h.elim hoff' hlen)]

theorem accesses_of_none (hinode : inode < fs.numInodes) {offset length : UInt32}
    (hnone : fileSize fs inode ≤ offset.toNat ∨ length = 0) : accesses fs inode offset length = [] := by
  have hnone' : offset ≥ (fs.inodes inode.toNat).fileSize ∨ length = 0 :=
    hnone.imp (fun h => UInt32.le_iff_toNat_le.2 h) id
  unfold accesses readDataLog
  rw [if_neg (UInt32.not_le.2 hinode)]
  simp only [if_pos hnone']

/-! ## Bad blocks -/

/-- The end of the range a request is for. -/
def rangeEnd (fs : FileSystem) (inode offset length : UInt32) : Nat :=
  min (offset.toNat + length.toNat) (fileSize fs inode)

/-- `b` is the first block that holds bytes of the range from `off` to `stop` and whose number is not
    in `[0, D)`. -/
structure FirstBad (fs : FileSystem) (inode : UInt32) (off stop b : Nat) : Prop where
  start_le : off / maxCharsInData ≤ b
  holds : b * maxCharsInData < stop
  bad : fs.numDataBlocks ≤ (fs.inodes inode.toNat).datablockIdx b
  first : ∀ b', off / maxCharsInData ≤ b' → b' < b →
    (fs.inodes inode.toNat).datablockIdx b' < fs.numDataBlocks

/-- A read stops at the first bad block of its range: it returns the bytes before that block, or fails
    if there are none, and copies nothing from a block outside the image. -/
structure StopsAtBad (fs : FileSystem) (inode offset length : UInt32) : Prop where
  full : (∀ b, ¬ FirstBad fs inode offset.toNat (rangeEnd fs inode offset length) b) →
    readData fs inode offset length = ⟨toRet (rangeEnd fs inode offset length - offset.toNat),
      fileSlice fs inode offset.toNat (rangeEnd fs inode offset length - offset.toNat)⟩
  failed : ∀ b, FirstBad fs inode offset.toNat (rangeEnd fs inode offset length) b →
    b = offset.toNat / maxCharsInData → readData fs inode offset length = ⟨-1, []⟩
  short : ∀ b, FirstBad fs inode offset.toNat (rangeEnd fs inode offset length) b →
    b ≠ offset.toNat / maxCharsInData →
    readData fs inode offset length = ⟨toRet (b * maxCharsInData - offset.toNat),
      fileSlice fs inode offset.toNat (b * maxCharsInData - offset.toNat)⟩
  blocks : ∀ d i, .byte d i ∈ accesses fs inode offset length → d < fs.numDataBlocks

/-- Without a first bad block there is no bad block in the range. -/
theorem lt_numDataBlocks_of_no_firstBad {off stop b : Nat}
    (hno : ∀ b' ≤ b, ¬ FirstBad fs inode off stop b') (hlo : off / maxCharsInData ≤ b)
    (hb : b * maxCharsInData < stop) :
    (fs.inodes inode.toNat).datablockIdx b < fs.numDataBlocks := by
  induction b using Nat.strong_induction_on with
  | _ b ih =>
      by_contra hbad
      refine hno b le_rfl ⟨hlo, hb, UInt32.not_lt.1 hbad, fun b' hlo' hlt => ?_⟩
      have hle : b' * maxCharsInData ≤ b * maxCharsInData := Nat.mul_le_mul_right _ hlt.le
      exact ih b' hlt (fun c hc => hno c (by omega)) hlo' (by omega)

/-- Within the range the loop stops only at a slot whose number is above `D`. -/
theorem lt_of_stopSlot_mul_lt {off stop : Nat} (h : stopSlot fs inode off stop * maxCharsInData < stop) :
    fs.numDataBlocks < (fs.inodes inode.toNat).datablockIdx (stopSlot fs inode off stop) :=
  (stopSlot_spec fs inode off stop).2.2 ((Nat.le_div_iff_mul_le (by decide)).2 h.le)

theorem FirstBad.le_stopSlot {off stop b : Nat} (h : FirstBad fs inode off stop b) :
    b ≤ stopSlot fs inode off stop := by
  by_contra hlt
  have hmul : stopSlot fs inode off stop * maxCharsInData ≤ b * maxCharsInData :=
    Nat.mul_le_mul_right _ (by omega)
  have hbad := lt_of_stopSlot_mul_lt (hmul.trans_lt h.holds)
  have hgood := h.first _ (stopSlot_spec fs inode off stop).1 (by omega)
  exact absurd hgood (UInt32.not_lt.2 (UInt32.le_of_lt hbad))

/-- The loop stops at the first bad block, unless its number is `D`. -/
theorem FirstBad.stopSlot_eq {off stop b : Nat} (h : FirstBad fs inode off stop b)
    (hne : (fs.inodes inode.toNat).datablockIdx b ≠ fs.numDataBlocks) :
    stopSlot fs inode off stop = b := by
  refine le_antisymm ?_ h.le_stopSlot
  by_contra hlt
  have hle := (stopSlot_spec fs inode off stop).2.1 b h.start_le (by omega)
  exact hne (UInt32.le_antisymm hle h.bad)

theorem FirstBad.lt_stopSlot {off stop b : Nat} (h : FirstBad fs inode off stop b)
    (heq : (fs.inodes inode.toNat).datablockIdx b = fs.numDataBlocks) :
    b < stopSlot fs inode off stop := by
  refine lt_of_le_of_ne h.le_stopSlot fun hb => ?_
  have hbad := lt_of_stopSlot_mul_lt (hb ▸ h.holds)
  rw [← hb, heq] at hbad
  exact UInt32.lt_irrefl _ hbad

/-- A loop that stops at the first bad block fails, if that is the block of the offset. -/
theorem FirstBad.readUpTo_first {off stop b : Nat} (h : FirstBad fs inode off stop b)
    (hfirst : b = off / maxCharsInData) : readUpTo fs inode off stop b = ⟨-1, []⟩ := by
  have hmul : b * maxCharsInData ≤ off := by
    rw [hfirst]
    exact Nat.div_mul_le_self _ _
  unfold readUpTo
  rw [if_pos ⟨(Nat.le_div_iff_mul_le (by decide)).2 h.holds.le, hmul⟩,
    Nat.sub_eq_zero_of_le ((Nat.min_le_right _ _).trans hmul)]
  rfl

/-- If it is a later one, the bytes before it are read. -/
theorem FirstBad.readUpTo_later {off stop b : Nat} (h : FirstBad fs inode off stop b)
    (hlater : b ≠ off / maxCharsInData) :
    readUpTo fs inode off stop b = ⟨toRet (b * maxCharsInData - off),
      fileSlice fs inode off (b * maxCharsInData - off)⟩ := by
  have hmul : off < b * maxCharsInData :=
    (Nat.div_lt_iff_lt_mul (by decide)).1 (lt_of_le_of_ne h.start_le (Ne.symm hlater))
  unfold readUpTo
  rw [if_neg (by omega), Nat.min_eq_right h.holds.le]

/-- The loop goes on at a block with number `D`, and reads more than the bytes before it. -/
theorem FirstBad.lt_length {off stop b : Nat} (h : FirstBad fs inode off stop b) (hoff : off < stop)
    (heq : (fs.inodes inode.toNat).datablockIdx b = fs.numDataBlocks) :
    b * maxCharsInData - off < (readUpTo fs inode off stop (stopSlot fs inode off stop)).data.length := by
  have hmul : (b + 1) * maxCharsInData ≤ stopSlot fs inode off stop * maxCharsInData :=
    Nat.mul_le_mul_right _ (h.lt_stopSlot heq)
  have hin : off < (b + 1) * maxCharsInData :=
    (Nat.div_lt_iff_lt_mul (by decide)).1 (Nat.lt_succ_of_le h.start_le)
  have hholds := h.holds
  have hsize : 0 < maxCharsInData := by decide
  rw [Nat.succ_mul] at hmul hin
  simp only [readUpTo, length_fileSlice]
  omega

/-- For a range that does not wrap around, a read stops at the first bad block exactly if that block's
    number is not `D` itself: the loop compares with `>`. -/
theorem readData_stopsAtBad_iff (hinode : inode < fs.numInodes) {offset length : UInt32}
    (hoff : offset.toNat < fileSize fs inode) (hlen : 0 < length.toNat)
    (hwrap : offset.toNat + length.toNat < 2 ^ 32) :
    StopsAtBad fs inode offset length ↔
      ∀ b, FirstBad fs inode offset.toNat (rangeEnd fs inode offset length) b →
        (fs.inodes inode.toNat).datablockIdx b ≠ fs.numDataBlocks := by
  have hne : length ≠ 0 := fun h => by subst h; simp at hlen
  have hread := readData_of_lt hinode hoff hne
  have hlog := accesses_of_lt hinode hoff hne
  have hend : endSearch (fs.inodes inode.toNat).fileSize offset length
      = rangeEnd fs inode offset length := endSearch_of_noWrap hwrap
  have hlt : offset.toNat < rangeEnd fs inode offset length := by
    unfold rangeEnd
    omega
  rw [hend] at hread hlog
  generalize hrange : rangeEnd fs inode offset length = stop at hread hlog hlt ⊢
  constructor
  · intro h b hb heq
    -- were the first bad number D, its block would be read as well
    have hmore := hb.lt_length hlt heq
    rw [← hread] at hmore
    by_cases hfirst : b = offset.toNat / maxCharsInData
    · rw [h.failed b (hrange ▸ hb) hfirst] at hmore
      exact absurd hmore (Nat.not_lt_zero _)
    · rw [h.short b (hrange ▸ hb) hfirst] at hmore
      simp only [length_fileSlice, Nat.lt_irrefl] at hmore
  · intro hD
    -- otherwise the loop stops at the first bad number
    refine ⟨fun hno => ?_, fun b hb hfirst => ?_, fun b hb hlater => ?_, fun d i hmem => ?_⟩
    · rw [hrange] at hno ⊢
      rw [hread]
      refine readUpTo_of_accepted hlt fun b hlo hb => UInt32.le_of_lt ?_
      exact lt_numDataBlocks_of_no_firstBad (fun b' _ => hno b') hlo hb
    · rw [hrange] at hb
      rw [hread, hb.stopSlot_eq (hD b hb)]
      exact hb.readUpTo_first hfirst
    · rw [hrange] at hb
      rw [hread, hb.stopSlot_eq (hD b hb)]
      exact hb.readUpTo_later hlater
    · rw [hlog] at hmem
      have hfuel : offset.toNat / maxCharsInData
          + (stop / maxCharsInData + 1 - offset.toNat / maxCharsInData) ≤ stop / maxCharsInData + 1 := by
        have := Nat.div_le_div_right (c := maxCharsInData) hlt.le
        omega
      obtain ⟨b, hlo, hb, rfl, hpos⟩ := byte_mem_readBlocksLog _ _ _ _ hfuel hmem
      by_cases hbad : ∃ b, FirstBad fs inode offset.toNat stop b
      · obtain ⟨b', hb'⟩ := hbad
        exact hb'.first b hlo (hb'.stopSlot_eq (hD b' hb') ▸ hb)
      · exact lt_numDataBlocks_of_no_firstBad (fun b' _ hb' => hbad ⟨b', hb'⟩) hlo (by omega)

/-- A file of two blocks, the second of which has the number `n`, in an image with two data blocks. -/
def twoBlockFile (n : UInt32) : FileSystem :=
  filesystemInit
    { bootBlock := { numDirEntries := 0, N := 1, D := 2, dirEntries := fun _ => ⟨fun _ => 0, 0, 0⟩ }
      inodes := fun _ => ⟨5000, fun b => if b = 0 then 0 else n⟩
      dataBlocks := fun _ _ => 120 } fun _ => 0

/-- The second block is the first bad one if its number is not below 2. -/
theorem twoBlockFile_firstBad {n : UInt32} (hn : 2 ≤ n) : FirstBad (twoBlockFile n) 0 0 5000 1 where
  start_le := Nat.zero_le _
  holds := by decide
  bad := hn
  first b' _ hb := by
    obtain rfl : b' = 0 := by omega
    exact (by decide : (0 : UInt32) < 2)

theorem twoBlockFile_firstBad_unique {n : UInt32} {b : Nat}
    (h : FirstBad (twoBlockFile n) 0 0 5000 b) : b = 1 := by
  have hholds := h.holds
  unfold maxCharsInData at hholds
  have hone : b ≠ 0 := by
    rintro rfl
    exact absurd h.bad (by decide : ¬ (2 : UInt32) ≤ 0)
  omega

/-- The number 3: the read ends after the first block. -/
theorem readData_stopsAtBad_three : StopsAtBad (twoBlockFile 3) 0 0 6000 := by
  refine (readData_stopsAtBad_iff (by decide) (by decide) (by decide) (by decide)).2 fun b hb => ?_
  obtain rfl := twoBlockFile_firstBad_unique hb
  decide

/-- The number 2, which is `D`: the read goes on into data block 2. -/
theorem readData_not_stopsAtBad :
    ¬ ∀ (fs : FileSystem) (inode offset length : UInt32), inode < fs.numInodes →
      fileSize fs inode ≤ maxInodeDataBlocks * maxCharsInData → offset.toNat < fileSize fs inode →
      0 < length.toNat → offset.toNat + length.toNat < 2 ^ 32 → StopsAtBad fs inode offset length := by
  intro hall
  have hstops := hall (twoBlockFile 2) 0 0 6000 (by decide) (by decide) (by decide) (by decide) (by decide)
  have hlength : (readData (twoBlockFile 2) 0 0 6000).data.length = 5000 := by
    rw [readData_of_lt (by decide) (by decide) (by decide)]
    exact length_fileSlice _ _
  rw [hstops.short 1 (twoBlockFile_firstBad (by decide)) (by decide), length_fileSlice] at hlength
  exact absurd hlength (by decide)

/-! ## The block table -/

/-- The block loop looks at slots of the inode's block table only. -/
def StaysInside (fs : FileSystem) (inode offset length : UInt32) : Prop :=
  ∀ b, .slot b ∈ accesses fs inode offset length → b < maxInodeDataBlocks

/-- The slots a read looks at: from the block of the offset to the block of the end of the range, which
    is one more than the last with bytes of the range if the end falls on a block boundary. -/
theorem slot_mem_accesses (hinode : inode < fs.numInodes) {offset length : UInt32}
    (hoff : offset.toNat < fileSize fs inode) (hlen : length ≠ 0) {stop b : Nat}
    (hstop : endSearch (fs.inodes inode.toNat).fileSize offset length = stop) :
    .slot b ∈ accesses fs inode offset length ↔
      offset.toNat / maxCharsInData ≤ b ∧ b ≤ stop / maxCharsInData ∧
        b ≤ stopSlot fs inode offset.toNat stop := by
  rw [accesses_of_lt hinode hoff hlen, slot_mem_readBlocksLog, hstop]
  unfold stopSlot
  omega

theorem endSearch_eq_size {offset length : UInt32} (hoff : offset.toNat < fileSize fs inode) :
    fileSize fs inode ≤ endSearch (fs.inodes inode.toNat).fileSize offset length ↔
      fileSize fs inode ≤ offset.toNat + length.toNat ∧ offset.toNat + length.toNat < 2 ^ 32 := by
  have hlen := length.toNat_lt
  unfold fileSize at *
  by_cases hwrap : offset.toNat + length.toNat < 2 ^ 32
  · rw [endSearch_of_noWrap hwrap]
    omega
  · rw [endSearch_of_wrap hoff (by omega)]
    omega

/-- A read looks past the block table of an inode exactly if the file has the largest size, is read up
    to its last byte, and no block number before that is above `D`. -/
theorem readData_staysInside_iff (hinode : inode < fs.numInodes)
    (hsize : fileSize fs inode ≤ maxInodeDataBlocks * maxCharsInData) (offset length : UInt32) :
    StaysInside fs inode offset length ↔
      ¬ (fileSize fs inode = maxInodeDataBlocks * maxCharsInData ∧ offset.toNat < fileSize fs inode ∧
        fileSize fs inode ≤ offset.toNat + length.toNat ∧ offset.toNat + length.toNat < 2 ^ 32 ∧
        ∀ b, offset.toNat / maxCharsInData ≤ b → b < maxInodeDataBlocks →
          (fs.inodes inode.toNat).datablockIdx b ≤ fs.numDataBlocks) := by
  by_cases hnone : fileSize fs inode ≤ offset.toNat ∨ length = 0
  · unfold StaysInside
    rw [accesses_of_none hinode hnone]
    simp only [List.not_mem_nil, false_implies, implies_true, true_iff]
    rintro ⟨-, hlt, hle, -, -⟩
    rcases hnone with hoff | rfl
    · omega
    · simp at hle
      omega
  push Not at hnone
  obtain ⟨hoff, hlen⟩ := hnone
  obtain ⟨stop, hstop⟩ : ∃ stop, endSearch (fs.inodes inode.toNat).fileSize offset length = stop :=
    ⟨_, rfl⟩
  have hend := @endSearch_eq_size fs inode offset length hoff
  have hle : stop ≤ fileSize fs inode := by
    rw [← hstop]
    unfold endSearch fileSize
    split_ifs <;> omega
  rw [hstop] at hend
  obtain ⟨hlo, hpass, hbad⟩ := stopSlot_spec fs inode offset.toNat stop
  have hmax : offset.toNat / maxCharsInData < maxInodeDataBlocks :=
    (Nat.div_lt_iff_lt_mul (by decide)).2 (by omega)
  unfold StaysInside
  simp only [slot_mem_accesses hinode hoff hlen hstop]
  constructor
  · -- in the exceptional case the loop gets to slot 1023
    rintro hinside ⟨hfull, -, hreach, hwrap, hgood⟩
    have hlast : maxInodeDataBlocks ≤ stop / maxCharsInData := by
      rw [Nat.le_div_iff_mul_le (by decide), ← hfull]
      exact hend.2 ⟨hreach, hwrap⟩
    refine absurd (hinside maxInodeDataBlocks ⟨hmax.le, hlast, ?_⟩) (lt_irrefl _)
    by_contra hlt
    exact absurd (hgood _ hlo (Nat.lt_of_not_le hlt)) (UInt32.not_le.2 (hbad (by omega)))
  · rintro hcase b ⟨hb, hblock, hslot⟩
    by_contra hge
    have hpos : maxInodeDataBlocks * maxCharsInData ≤ stop := by
      refine le_trans (Nat.mul_le_mul_right _ (Nat.le_of_not_lt hge)) ?_
      exact (Nat.le_div_iff_mul_le (by decide)).1 hblock
    have hfull := hend.1 (by omega)
    exact hcase ⟨by omega, hoff, hfull.1, hfull.2, fun c hc hclt => hpass c hc (by omega)⟩

/-- A file of the given size whose blocks are all block 0. -/
def bigFile (size : UInt32) : FileSystem :=
  filesystemInit
    { bootBlock := { numDirEntries := 0, N := 1, D := 1, dirEntries := fun _ => ⟨fun _ => 0, 0, 0⟩ }
      inodes := fun _ => ⟨size, fun _ => 0⟩
      dataBlocks := fun _ _ => 120 } fun _ => 0

/-- One byte less than the largest size. -/
theorem readData_staysInside_big : StaysInside (bigFile 4190207) 0 0 4190207 :=
  (readData_staysInside_iff (by decide) (by decide) 0 4190207).2 fun h => absurd h.1 (by decide)

/-- The largest size, read from the last byte on. -/
theorem readData_not_staysInside :
    ¬ ∀ (fs : FileSystem) (inode : UInt32), inode < fs.numInodes →
      fileSize fs inode ≤ maxInodeDataBlocks * maxCharsInData →
      ∀ offset length, StaysInside fs inode offset length := by
  intro hall
  have hinside := hall (bigFile 4190208) 0 (by decide) (by decide) 4190207 1 1023
  have hend : endSearch ((bigFile 4190208).inodes (0 : UInt32).toNat).fileSize 4190207 1 = 4190208 := by
    decide
  rw [slot_mem_accesses (by decide) (by decide) (by decide) hend] at hinside
  exact absurd (hinside (by decide)) (by decide)

/-! ## When a read fails -/

/-- The requests for which `read_data` returns `-1`: there is no such inode, or the loop begins at a bad
    block, or the number of bytes read is itself `-1` as an `int32_t`. -/
inductive ReadFails (fs : FileSystem) (inode offset length : UInt32) : Prop
  | noInode (missing : fs.numInodes ≤ inode)
  | badFirst (inside : offset.toNat < fileSize fs inode) (asked : length ≠ 0)
      (reached : offset.toNat / maxCharsInData
        ≤ min (offset + length).toNat (fileSize fs inode) / maxCharsInData)
      (bad : fs.numDataBlocks
        < (fs.inodes inode.toNat).datablockIdx (offset.toNat / maxCharsInData))
  | everything (start : offset = 0) (asked : length = 0xFFFFFFFF)
      (size : fileSize fs inode = 0xFFFFFFFF)
      (good : ∀ b < 2 ^ 20, (fs.inodes inode.toNat).datablockIdx b ≤ fs.numDataBlocks)

theorem endSearch_eq_min (fs : FileSystem) (inode offset length : UInt32) :
    endSearch (fs.inodes inode.toNat).fileSize offset length
      = min (offset + length).toNat (fileSize fs inode) := by
  unfold endSearch fileSize
  split_ifs <;> omega

/-- Unless it fails, `read_data` returns a number of bytes that lie in the file. -/
theorem readData_cases (fs : FileSystem) (inode offset length : UInt32) :
    (readData fs inode offset length).ret = -1 ∨
      ∃ n, (readData fs inode offset length).ret = toRet n ∧
        (n = 0 ∨ offset.toNat + n ≤ fileSize fs inode) := by
  rw [readData_eq, endSearch_eq_min]
  split_ifs with hinode hnone
  · exact Or.inl rfl
  · exact Or.inr ⟨0, rfl, Or.inl rfl⟩
  · generalize stopSlot fs inode offset.toNat (min (offset + length).toNat (fileSize fs inode)) = e
    simp only [readUpTo]
    split_ifs
    · exact Or.inl rfl
    · exact Or.inr ⟨_, rfl, by omega⟩

theorem readFails_of_ret {offset length : UInt32} (hret : (readData fs inode offset length).ret = -1) :
    ReadFails fs inode offset length := by
  have hsize : fileSize fs inode < 2 ^ 32 := (fs.inodes inode.toNat).fileSize.toNat_lt
  by_cases hinode : fs.numInodes ≤ inode
  · exact .noInode hinode
  have hlt := UInt32.not_le.1 hinode
  by_cases hnone : fileSize fs inode ≤ offset.toNat ∨ length = 0
  · rw [readData_of_none hlt hnone] at hret
    exact absurd hret (by decide : ¬ (0 : Int32) = -1)
  push Not at hnone
  obtain ⟨hoff, hlen⟩ := hnone
  rw [readData_of_lt hlt hoff hlen, endSearch_eq_min] at hret
  obtain ⟨hlo, hpass, hbad⟩ := stopSlot_spec fs inode offset.toNat
    (min (offset + length).toNat (fileSize fs inode))
  generalize stopSlot fs inode offset.toNat (min (offset + length).toNat (fileSize fs inode)) = e
    at hret hlo hpass hbad
  simp only [readUpTo] at hret
  split_ifs at hret with hfirst
  · -- the loop has stopped at the block of the offset
    obtain rfl : e = offset.toNat / maxCharsInData :=
      le_antisymm ((Nat.le_div_iff_mul_le (by decide)).2 hfirst.2) hlo
    exact .badFirst hoff hlen hfirst.1 (hbad hfirst.1)
  · have hcount := toRet_eq_neg_one.1 hret
    have hzero : offset.toNat = 0 := by omega
    obtain rfl : offset = 0 := UInt32.toNat_inj.1 (by simpa using hzero)
    rw [UInt32.zero_add] at hcount hfirst hbad
    have hlength : length.toNat = 2 ^ 32 - 1 := by
      have := length.toNat_lt
      omega
    refine .everything rfl (UInt32.toNat_inj.1 hlength) (by omega) fun b hb => ?_
    refine hpass b (by simp) ?_
    unfold maxCharsInData at hcount
    omega

theorem ReadFails.ret {offset length : UInt32} (hfails : ReadFails fs inode offset length) :
    (readData fs inode offset length).ret = -1 := by
  by_cases hinode : fs.numInodes ≤ inode
  · rw [readData_eq, if_pos hinode]
  have hlt := UInt32.not_le.1 hinode
  cases hfails with
  | noInode missing => exact absurd missing hinode
  | badFirst inside asked reached bad =>
      rw [readData_of_lt hlt inside asked, endSearch_eq_min]
      obtain ⟨hlo, hpass, -⟩ := stopSlot_spec fs inode offset.toNat
        (min (offset + length).toNat (fileSize fs inode))
      have hfirst : stopSlot fs inode offset.toNat (min (offset + length).toNat (fileSize fs inode))
          = offset.toNat / maxCharsInData := by
        refine le_antisymm ?_ hlo
        by_contra hgt
        exact absurd (hpass _ le_rfl (Nat.lt_of_not_le hgt)) (UInt32.not_le.2 bad)
      rw [hfirst]
      unfold readUpTo
      rw [if_pos ⟨reached, Nat.div_mul_le_self _ _⟩]
  | everything start asked size good =>
      subst start asked
      rw [readData_of_lt hlt (by rw [size]; decide) (by decide), endSearch_eq_min, size]
      change (readUpTo fs inode 0 0xFFFFFFFF (stopSlot fs inode 0 0xFFFFFFFF)).ret = -1
      have hpast : 2 ^ 20 ≤ stopSlot fs inode 0 0xFFFFFFFF := by
        by_contra hlt'
        have hbad := (stopSlot_spec fs inode 0 0xFFFFFFFF).2.2 (by unfold maxCharsInData; omega)
        exact absurd (good _ (by omega)) (UInt32.not_le.2 hbad)
      have hend : ¬ (stopSlot fs inode 0 0xFFFFFFFF ≤ 0xFFFFFFFF / maxCharsInData ∧
          stopSlot fs inode 0 0xFFFFFFFF * maxCharsInData ≤ 0) := by
        unfold maxCharsInData
        omega
      simp only [readUpTo, if_neg hend]
      rw [Nat.min_eq_left (by unfold maxCharsInData; omega)]
      decide

theorem readData_fails_iff (fs : FileSystem) (inode offset length : UInt32) :
    (readData fs inode offset length).ret = -1 ↔ ReadFails fs inode offset length :=
  ⟨readFails_of_ret, ReadFails.ret⟩

end BaseOs
