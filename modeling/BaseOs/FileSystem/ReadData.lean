import BaseOs.FileSystem

set_option autoImplicit false

/-! # What `read_data` reads

A file's contents are its data blocks one after the other, cut to the file size. The block loop is
followed with one invariant: the characters read so far are the file's bytes from `offset` up to the
current block. So a read is determined by the slot at which the loop stops (`readData_eq`), for any
image and any range, also for one whose end has wrapped around and lies before its start. -/

namespace BaseOs

variable (fs : FileSystem) (inode : UInt32)

/-! ## File contents -/

def fileSize : Nat := (fs.inodes inode.toNat).fileSize.toNat

/-- Byte `i` of a file, through its block table. -/
def fileByte (i : Nat) : UInt8 :=
  fs.dataBlocks ((fs.inodes inode.toNat).datablockIdx (i / maxCharsInData)).toNat (i % maxCharsInData)

/-- The number of blocks holding bytes of the file. -/
def numBlocks : Nat := (fileSize fs inode + (maxCharsInData - 1)) / maxCharsInData

/-- The file's blocks concatenated and cut to its size. -/
def fileContents : List UInt8 :=
  ((List.range (numBlocks fs inode)).flatMap fun b =>
    (List.range maxCharsInData).map
      (fs.dataBlocks ((fs.inodes inode.toNat).datablockIdx b).toNat)).take (fileSize fs inode)

/-- A regular file as the format has it: an existing inode, at most 1023 blocks, and a valid block
    number in every slot that holds bytes of the file. Later slots hold anything. -/
structure WellFormedFile : Prop where
  inode_lt : inode < fs.numInodes
  size_le : fileSize fs inode ≤ maxInodeDataBlocks * maxCharsInData
  block_lt : ∀ b < numBlocks fs inode, (fs.inodes inode.toNat).datablockIdx b < fs.numDataBlocks

variable {fs inode}

theorem lt_numBlocks {b : Nat} : b < numBlocks fs inode ↔ b * maxCharsInData < fileSize fs inode := by
  unfold numBlocks maxCharsInData
  omega

/-- Blocks of `c` values one after the other are the values at `i / c`, `i % c`. -/
theorem flatMap_range_blocks {β : Type*} (f : Nat → Nat → β) {c : Nat} (hc : 0 < c) (n : Nat) :
    ((List.range n).flatMap fun b => (List.range c).map (f b))
      = (List.range (n * c)).map fun i => f (i / c) (i % c) := by
  induction n with
  | zero => simp
  | succ n ih =>
      rw [List.range_succ, List.flatMap_append, ih, Nat.succ_mul, List.range_add, List.map_append,
        List.map_map]
      simp only [List.flatMap_cons, List.flatMap_nil, List.append_nil]
      congr 1
      apply List.map_congr_left
      intro j hj
      have hj' : j < c := List.mem_range.1 hj
      simp only [Function.comp_apply]
      rw [Nat.mul_comm n c, Nat.mul_add_div hc, Nat.div_eq_of_lt hj', Nat.mul_add_mod,
        Nat.mod_eq_of_lt hj', Nat.add_zero]

theorem fileContents_eq :
    fileContents fs inode = (List.range (fileSize fs inode)).map (fileByte fs inode) := by
  unfold fileContents
  rw [flatMap_range_blocks (fun b => fs.dataBlocks ((fs.inodes inode.toNat).datablockIdx b).toNat)
    (c := maxCharsInData) (by decide), ← List.map_take, List.take_range]
  change _ = (List.range _).map fun i => fileByte fs inode i
  congr 2
  apply Nat.min_eq_left
  unfold numBlocks maxCharsInData
  omega

theorem length_fileContents : (fileContents fs inode).length = fileSize fs inode := by
  rw [fileContents_eq, List.length_map, List.length_range]

/-- The bytes of the file from `off` on, `n` of them. -/
def fileSlice (fs : FileSystem) (inode : UInt32) (off n : Nat) : List UInt8 :=
  (List.range' off n).map (fileByte fs inode)

@[simp]
theorem length_fileSlice (off n : Nat) : (fileSlice fs inode off n).length = n := by
  simp [fileSlice]

theorem fileSlice_append (off n m : Nat) :
    fileSlice fs inode off n ++ fileSlice fs inode (off + n) m = fileSlice fs inode off (n + m) := by
  unfold fileSlice
  rw [← List.map_append, List.range'_append_1]

theorem fileSlice_zero_eq_take {n : Nat} (h : n ≤ fileSize fs inode) :
    fileSlice fs inode 0 n = (fileContents fs inode).take n := by
  rw [fileContents_eq, ← List.map_take, List.take_range, Nat.min_eq_left h, List.range_eq_range']
  rfl

/-- One run of the inner loop copies the file's bytes of that block. -/
theorem blockBytes_eq_fileSlice {b first last : Nat} (hlast : last ≤ maxCharsInData) :
    blockBytes fs ((fs.inodes inode.toNat).datablockIdx b) first last
      = fileSlice fs inode (b * maxCharsInData + first) (last - first) := by
  unfold blockBytes fileSlice
  rw [← List.map_add_range', List.map_map]
  apply List.map_congr_left
  intro j hj
  have hj' : j < maxCharsInData := by
    have := List.mem_range'_1.1 hj
    omega
  simp only [Function.comp_apply, fileByte]
  rw [Nat.mul_comm b maxCharsInData, Nat.mul_add_div (by decide), Nat.div_eq_of_lt hj',
    Nat.mul_add_mod, Nat.mod_eq_of_lt hj', Nat.add_zero]

/-! ## The block loop -/

/-- Does the loop go on at this slot? Only a block number above `D` stops it. -/
def acceptsSlot (fs : FileSystem) (inode : UInt32) (b : Nat) : Bool :=
  !decide ((fs.inodes inode.toNat).datablockIdx b > fs.numDataBlocks)

/-- The slot at which the loop for the range from `off` to `stop` stops: the first one it does not
    accept, or the one after the last. -/
def stopSlot (fs : FileSystem) (inode : UInt32) (off stop : Nat) : Nat :=
  Scan.scan (acceptsSlot fs inode) (off / maxCharsInData)
    (stop / maxCharsInData + 1 - off / maxCharsInData)

/-- What the loop returns if it stops at slot `e`: the bytes before that slot, or the failure if there
    are none. -/
def readUpTo (fs : FileSystem) (inode : UInt32) (off stop e : Nat) : ReadResult where
  ret := if e ≤ stop / maxCharsInData ∧ e * maxCharsInData ≤ off then -1
    else toRet (min stop (e * maxCharsInData) - off)
  data := fileSlice fs inode off (min stop (e * maxCharsInData) - off)

theorem acceptsSlot_iff {b : Nat} :
    acceptsSlot fs inode b = true ↔ (fs.inodes inode.toNat).datablockIdx b ≤ fs.numDataBlocks := by
  simp [acceptsSlot]

/-- Where the loop stops: it has accepted every slot before that one, and stops within the range only
    at a slot it does not accept. -/
theorem stopSlot_spec (fs : FileSystem) (inode : UInt32) (off stop : Nat) :
    off / maxCharsInData ≤ stopSlot fs inode off stop ∧
      (∀ b, off / maxCharsInData ≤ b → b < stopSlot fs inode off stop →
        (fs.inodes inode.toNat).datablockIdx b ≤ fs.numDataBlocks) ∧
      (stopSlot fs inode off stop ≤ stop / maxCharsInData →
        fs.numDataBlocks < (fs.inodes inode.toNat).datablockIdx (stopSlot fs inode off stop)) := by
  obtain ⟨hlo, -, hpass, hstop⟩ := Scan.scan_spec (acceptsSlot fs inode) (off / maxCharsInData)
    (stop / maxCharsInData + 1 - off / maxCharsInData)
  refine ⟨hlo, fun b h1 h2 => acceptsSlot_iff.1 (hpass b h1 h2), fun hle => ?_⟩
  unfold stopSlot at hle ⊢
  have hbad := hstop (by omega)
  rw [Bool.eq_false_iff, ne_eq, acceptsSlot_iff, UInt32.not_le] at hbad
  exact hbad

/-- How far the inner loop runs: to the end of the block, or of the range. -/
def innerEnd (stop blockLoop : Nat) : Nat :=
  if blockLoop = stop / maxCharsInData then stop % maxCharsInData else maxCharsInData

theorem innerEnd_spec {stop b : Nat} (h : b ≤ stop / maxCharsInData) :
    innerEnd stop b ≤ maxCharsInData ∧
      min stop ((b + 1) * maxCharsInData) = b * maxCharsInData + innerEnd stop b := by
  unfold innerEnd maxCharsInData at *
  split_ifs <;> omega

/-- Loop invariant of `read_data`: what was read is the slice from `off` to the beginning of the
    current block, and the inner loop starts at `off` in the first block and at 0 in the others. -/
theorem readBlocks_eq (fs : FileSystem) (inode : UInt32) (off stop : Nat) :
    ∀ (fuel blockLoop : Nat), fuel = stop / maxCharsInData + 1 - blockLoop →
      off / maxCharsInData ≤ blockLoop →
      readBlocks fs inode (stop / maxCharsInData) (stop % maxCharsInData) fuel blockLoop
          (off - blockLoop * maxCharsInData)
          (fileSlice fs inode off (min stop (blockLoop * maxCharsInData) - off))
        = readUpTo fs inode off stop (Scan.scan (acceptsSlot fs inode) blockLoop fuel) := by
  intro fuel
  induction fuel with
  | zero =>
      intro blockLoop hfuel hlo
      have hpast : ¬ blockLoop ≤ stop / maxCharsInData := by omega
      simp only [readBlocks, Scan.scan, readUpTo, length_fileSlice, hpast, false_and, if_false]
  | succ fuel ih =>
      intro blockLoop hfuel hlo
      have hle : blockLoop ≤ stop / maxCharsInData := by omega
      have hpos : min stop (blockLoop * maxCharsInData) = blockLoop * maxCharsInData :=
        Nat.min_eq_right ((Nat.le_div_iff_mul_le (by decide)).1 hle)
      rw [readBlocks, Scan.scan]
      -- a block that is read adds its part of the range; at a bad number the loop ends
      by_cases hgood : acceptsSlot fs inode blockLoop = true
      · rw [if_neg (UInt32.not_lt.2 (acceptsSlot_iff.1 hgood)), if_pos hgood,
          ← ih (blockLoop + 1) (by omega) (by omega)]
        have hcurr : off - (blockLoop + 1) * maxCharsInData = 0 := by
          unfold maxCharsInData at *
          omega
        obtain ⟨hlast, hnext⟩ := innerEnd_spec hle
        simp only [hcurr, hpos, hnext]
        rw [← innerEnd, blockBytes_eq_fileSlice hlast]
        generalize innerEnd stop blockLoop = last
        congr 1
        have hstart : blockLoop * maxCharsInData + (off - blockLoop * maxCharsInData)
            = off + (blockLoop * maxCharsInData - off) := by omega
        rw [hstart, fileSlice_append]
        congr 1
        omega
      · have hbad : (fs.inodes inode.toNat).datablockIdx blockLoop > fs.numDataBlocks :=
          UInt32.not_le.1 (mt acceptsSlot_iff.2 hgood)
        rw [if_pos hbad, if_neg hgood, hpos, length_fileSlice]
        unfold readUpTo
        rw [hpos]
        by_cases hfirst : blockLoop * maxCharsInData ≤ off
        · rw [if_pos (by omega), if_pos ⟨hle, hfirst⟩]
        · rw [if_neg (by omega), if_neg fun h => hfirst h.2]

/-! ## The whole function -/

/-- `read_data`, for any image, inode and range. -/
theorem readData_eq (fs : FileSystem) (inode offset length : UInt32) :
    readData fs inode offset length =
      if inode ≥ fs.numInodes then ⟨-1, []⟩
      else if offset ≥ (fs.inodes inode.toNat).fileSize ∨ length = 0 then ⟨0, []⟩
      else readUpTo fs inode offset.toNat
        (endSearch (fs.inodes inode.toNat).fileSize offset length)
        (stopSlot fs inode offset.toNat
          (endSearch (fs.inodes inode.toNat).fileSize offset length)) := by
  unfold readData
  simp only
  split_ifs with hinode hnone
  · rfl
  · rfl
  · generalize endSearch (fs.inodes inode.toNat).fileSize offset length = stop
    have hloop := readBlocks_eq fs inode offset.toNat stop _ (offset.toNat / maxCharsInData) rfl le_rfl
    have hcurr : offset.toNat - offset.toNat / maxCharsInData * maxCharsInData
        = offset.toNat % maxCharsInData := by
      unfold maxCharsInData
      omega
    have hstart : min stop (offset.toNat / maxCharsInData * maxCharsInData) - offset.toNat = 0 := by
      unfold maxCharsInData
      omega
    rw [hcurr, hstart] at hloop
    exact hloop

/-- No more bytes are stored than were asked for, or than there are from the offset on. -/
theorem readData_length_le (fs : FileSystem) (inode offset length : UInt32) :
    (readData fs inode offset length).data.length
      ≤ min length.toNat ((fs.inodes inode.toNat).fileSize.toNat - offset.toNat) := by
  rw [readData_eq]
  split_ifs
  · exact Nat.zero_le _
  · exact Nat.zero_le _
  · have hsum : (offset + length).toNat ≤ offset.toNat + length.toNat := by
      rw [UInt32.toNat_add]
      exact Nat.mod_le _ _
    simp only [readUpTo, length_fileSlice]
    unfold endSearch
    split_ifs <;> omega

/-- A request for bytes of the file, in an existing inode. -/
theorem readData_of_lt (hinode : inode < fs.numInodes) {offset length : UInt32}
    (hoff : offset.toNat < fileSize fs inode) (hlen : length ≠ 0) :
    readData fs inode offset length =
      readUpTo fs inode offset.toNat
        (endSearch (fs.inodes inode.toNat).fileSize offset length)
        (stopSlot fs inode offset.toNat
          (endSearch (fs.inodes inode.toNat).fileSize offset length)) := by
  have hoff' : ¬ offset ≥ (fs.inodes inode.toNat).fileSize :=
    UInt32.not_le.2 (UInt32.lt_iff_toNat_lt.2 hoff)
  rw [readData_eq, if_neg (UInt32.not_le.2 hinode), if_neg fun h => h.elim hoff' hlen]

/-- A request for nothing, or for bytes past the end of the file. -/
theorem readData_of_none (hinode : inode < fs.numInodes) {offset length : UInt32}
    (hnone : fileSize fs inode ≤ offset.toNat ∨ length = 0) :
    readData fs inode offset length = ⟨0, []⟩ := by
  have hnone' : offset ≥ (fs.inodes inode.toNat).fileSize ∨ length = 0 :=
    hnone.imp (fun h => UInt32.le_iff_toNat_le.2 h) id
  rw [readData_eq, if_neg (UInt32.not_le.2 hinode), if_pos hnone']

theorem endSearch_of_noWrap {size offset length : UInt32}
    (hwrap : offset.toNat + length.toNat < 2 ^ 32) :
    endSearch size offset length = min (offset.toNat + length.toNat) size.toNat := by
  unfold endSearch
  rw [UInt32.toNat_add, Nat.mod_eq_of_lt hwrap]
  split_ifs <;> omega

/-- The end of a range that wraps around lies before its start. -/
theorem endSearch_of_wrap {size offset length : UInt32} (hoff : offset.toNat < size.toNat)
    (hwrap : 2 ^ 32 ≤ offset.toNat + length.toNat) :
    endSearch size offset length = offset.toNat + length.toNat - 2 ^ 32 := by
  have hlen := length.toNat_lt
  have hsize := size.toNat_lt
  have hsum : (offset + length).toNat = offset.toNat + length.toNat - 2 ^ 32 := by
    rw [UInt32.toNat_add]
    omega
  unfold endSearch
  rw [hsum, if_neg (by omega)]

theorem toNat_pos_of_ne_zero {n : UInt32} (h : n ≠ 0) : 0 < n.toNat :=
  Nat.pos_of_ne_zero fun hz => h (UInt32.toNat_inj.1 (by simpa using hz))

/-- The loop gets through a range in which it accepts every slot that holds bytes. -/
theorem readUpTo_of_accepted {off stop : Nat} (hoff : off < stop)
    (hgood : ∀ b, off / maxCharsInData ≤ b → b * maxCharsInData < stop →
      (fs.inodes inode.toNat).datablockIdx b ≤ fs.numDataBlocks) :
    readUpTo fs inode off stop (stopSlot fs inode off stop)
      = ⟨toRet (stop - off), fileSlice fs inode off (stop - off)⟩ := by
  obtain ⟨hlo, -, hbad⟩ := stopSlot_spec fs inode off stop
  generalize stopSlot fs inode off stop = e at hlo hbad ⊢
  have hpast : stop ≤ e * maxCharsInData := by
    by_contra hlt
    have hslot : e ≤ stop / maxCharsInData := (Nat.le_div_iff_mul_le (by decide)).2 (by omega)
    exact absurd (hbad hslot) (UInt32.not_lt.2 (hgood e hlo (by omega)))
  unfold readUpTo
  rw [if_neg (by omega), Nat.min_eq_left hpast]

/-- The loop gets through a range of a proper file. -/
theorem readUpTo_wellFormed (hfile : WellFormedFile fs inode) {off stop : Nat} (hoff : off < stop)
    (hstop : stop ≤ fileSize fs inode) :
    readUpTo fs inode off stop (stopSlot fs inode off stop)
      = ⟨toRet (stop - off), fileSlice fs inode off (stop - off)⟩ := by
  refine readUpTo_of_accepted hoff fun b _ hb => UInt32.le_of_lt ?_
  exact hfile.block_lt b (lt_numBlocks.2 (by omega))

/-- `read_data` from the start of a file whose blocks up to the end of the request are accepted,
    however large the file is. -/
theorem readData_zero_of_accepted (hinode : inode < fs.numInodes) {length : UInt32}
    (hgood : ∀ b, b * maxCharsInData < min length.toNat (fileSize fs inode) →
      (fs.inodes inode.toNat).datablockIdx b ≤ fs.numDataBlocks) :
    readData fs inode 0 length =
      ⟨toRet (min length.toNat (fileSize fs inode)),
        fileSlice fs inode 0 (min length.toNat (fileSize fs inode))⟩ := by
  by_cases hnone : fileSize fs inode ≤ (0 : UInt32).toNat ∨ length = 0
  · have hzero : min length.toNat (fileSize fs inode) = 0 := by
      rcases hnone with hsize | rfl
      · rw [Nat.le_zero.1 hsize, Nat.min_zero]
      · exact Nat.zero_min _
    rw [readData_of_none hinode hnone, hzero]
    rfl
  · push Not at hnone
    obtain ⟨hsize, hlen⟩ := hnone
    have hpos := toNat_pos_of_ne_zero hlen
    rw [readData_of_lt hinode hsize hlen, endSearch_of_noWrap (by simpa using length.toNat_lt),
      UInt32.toNat_zero, Nat.zero_add]
    rw [UInt32.toNat_zero] at hsize
    exact readUpTo_of_accepted (Nat.lt_min.2 ⟨hpos, hsize⟩) fun b _ hb => hgood b hb

/-- `read_data` on a well-formed file, as long as `offset + length` does not wrap: the count of bytes
    available in the range, and exactly those bytes. -/
theorem readData_of_noWrap (hfile : WellFormedFile fs inode) {offset length : UInt32}
    (hwrap : offset.toNat + length.toNat < 2 ^ 32) :
    readData fs inode offset length =
      ⟨toRet (min length.toNat (fileSize fs inode - offset.toNat)),
        fileSlice fs inode offset.toNat (min length.toNat (fileSize fs inode - offset.toNat))⟩ := by
  by_cases hnone : fileSize fs inode ≤ offset.toNat ∨ length = 0
  · have hzero : min length.toNat (fileSize fs inode - offset.toNat) = 0 := by
      rcases hnone with hoff | rfl
      · omega
      · simp
    rw [readData_of_none hfile.inode_lt hnone, hzero]
    rfl
  · push Not at hnone
    obtain ⟨hoff, hlen⟩ := hnone
    have hpos := toNat_pos_of_ne_zero hlen
    rw [readData_of_lt hfile.inode_lt hoff hlen, endSearch_of_noWrap hwrap]
    change readUpTo fs inode offset.toNat (min (offset.toNat + length.toNat) (fileSize fs inode)) _ = _
    have hcount : min (offset.toNat + length.toNat) (fileSize fs inode) - offset.toNat
        = min length.toNat (fileSize fs inode - offset.toNat) := by omega
    rw [← hcount]
    exact readUpTo_wellFormed hfile (by omega) (by omega)

/-! ## Return values -/

theorem toRet_inj {n m : Nat} : toRet n = toRet m ↔ n % 2 ^ 32 = m % 2 ^ 32 := by
  unfold toRet
  constructor
  · intro h
    have hnat := congrArg (fun r : Int32 => r.toUInt32.toNat) h
    simpa only [UInt32.toUInt32_toInt32, UInt32.toNat_ofNat'] using hnat
  · intro h
    have hof : UInt32.ofNat n = UInt32.ofNat m := by
      apply UInt32.toNat_inj.1
      simpa only [UInt32.toNat_ofNat'] using h
    rw [hof]

theorem toRet_eq_neg_one {n : Nat} : toRet n = -1 ↔ n % 2 ^ 32 = 2 ^ 32 - 1 := by
  have hneg : (-1 : Int32) = toRet (2 ^ 32 - 1) := by decide
  rw [hneg, toRet_inj, Nat.mod_eq_of_lt (show 2 ^ 32 - 1 < 2 ^ 32 by decide)]

/-- If a read from the start of a file works, every read from its start returns the number of bytes
    it stored: the only failure left would be a bad first block. -/
theorem readData_zero_ret {length length' : UInt32} (hlen : length ≠ 0)
    (h : (readData fs inode 0 length).ret ≠ -1) :
    (readData fs inode 0 length').ret = toRet (readData fs inode 0 length').data.length := by
  have hinode : inode < fs.numInodes := by
    by_contra hge
    exact h (by rw [readData_eq, if_pos (UInt32.not_lt.1 hge)])
  by_cases hnone : fileSize fs inode ≤ (0 : UInt32).toNat ∨ length' = 0
  · rw [readData_of_none hinode hnone]
    rfl
  push Not at hnone
  obtain ⟨hoff, hlen'⟩ := hnone
  rw [readData_of_lt hinode hoff hlen] at h
  rw [readData_of_lt hinode hoff hlen']
  generalize endSearch (fs.inodes inode.toNat).fileSize 0 length = stop at h
  generalize endSearch (fs.inodes inode.toNat).fileSize 0 length' = stop'
  have hfirst : (fs.inodes inode.toNat).datablockIdx 0 ≤ fs.numDataBlocks := by
    by_contra hbad
    have hzero : stopSlot fs inode 0 stop = 0 := by
      by_contra hne
      exact hbad ((stopSlot_spec fs inode 0 stop).2.1 0 (Nat.zero_le _) (Nat.pos_of_ne_zero hne))
    apply h
    rw [UInt32.toNat_zero, hzero]
    unfold readUpTo
    rw [if_pos ⟨Nat.zero_le _, by rw [Nat.zero_mul]⟩]
  have hne : ¬ (stopSlot fs inode 0 stop' ≤ stop' / maxCharsInData ∧
      stopSlot fs inode 0 stop' * maxCharsInData ≤ 0) := by
    rintro ⟨hle, hzero⟩
    have hbad := (stopSlot_spec fs inode 0 stop').2.2 hle
    rw [(Nat.mul_eq_zero.1 (Nat.le_zero.1 hzero)).resolve_right (by decide)] at hbad
    exact absurd hfirst (UInt32.not_le.2 hbad)
  simp only [UInt32.toNat_zero, readUpTo, if_neg hne, length_fileSlice]

end BaseOs
