import BaseOs.User.GrepLines

set_option autoImplicit false

/-! # `grep` (`ece391grep.c`): the files

What `do_one_file` does with a file read piece by piece, and `main` with the directory. `grep_shows` says that
the program writes exactly the lines that contain the pattern, each behind the name of its file. -/

namespace BaseOs

open Kernel Programs Terminated

variable {cfg : Config} {m : Machine} {p : Slot} {i : FdIndex} {table : FdTable} {out : List UInt8}
  {pat fname text : List UInt8} {s data : Bytes} {rest total : List UInt8} {last : Nat} {cnt : Int32}
  {st : LineState} {fn : Bytes}

/-! ## A file -/

/-- A text `grep` can search: no NULs, and no line as long as its array. -/
structure Searchable (text : List UInt8) : Prop where
  nonzero : ∀ c ∈ text, c ≠ 0
  lines : ∀ part, part <:+: text → part.length = grepBufSize → 10 ∈ part

/-- While a file is searched: what the array still holds, and what has not been read yet, is still to be
    searched. -/
structure SearchingFile (cfg : Config) (p : Slot) (i : FdIndex) (table : FdTable) (inode : UInt32)
    (pat fname total : List UInt8) (st : Bytes × Nat) (m : Machine) : Prop where
  room : st.2 < grepBufSize
  mark : grepBufSize ≤ fileSize cfg.fs inode → st.1 grepBufSize ≠ 10
  at_pos : ∃ (pos : UInt32) (out : List UInt8), pos.toNat ≤ fileSize cfg.fs inode ∧
    m.At p (Function.update table i ⟨some .filesys, inode.toInt32, pos, fdOn⟩) out ∧
    firstBytes st.1 st.2 <:+ (fileContents cfg.fs inode).take pos.toNat ∧
    out ++ grepText pat fname (firstBytes st.1 st.2 ++ (fileContents cfg.fs inode).drop pos.toNat) = total

theorem fileSlice_eq_take {fs : FileSystem} {inode : UInt32} {pos c : Nat}
    (hc : pos + c ≤ fileSize fs inode) :
    fileSlice fs inode pos c = ((fileContents fs inode).drop pos).take c := by
  rw [fileContents_eq, drop_map_range, take_map_range', Nat.min_eq_left (by omega)]
  rfl

/-- The array after a read behind its first `last` bytes. -/
def readBehind (arr : Bytes) (last : Nat) (slice : List UInt8) : Bytes := fun j =>
  if j < last then arr j else store (fun j => arr (last + j)) slice (j - last)

theorem firstBytes_readBehind (arr : Bytes) (last : Nat) (slice : List UInt8) :
    firstBytes (readBehind arr last slice) (last + slice.length) = firstBytes arr last ++ slice := by
  unfold firstBytes
  rw [List.range_add, List.map_append, List.map_map]
  congr 1
  · exact List.map_congr_left fun j hj => if_pos (List.mem_range.1 hj)
  · refine (List.map_congr_left fun j _ => ?_).trans (map_store_range (fun j => arr (last + j)) slice)
    simp [readBehind]

/-- A read leaves the bytes behind it alone. -/
theorem readBehind_of_ge {arr : Bytes} {last j : Nat} {slice : List UInt8} (hj : last + slice.length ≤ j) :
    readBehind arr last slice j = arr j := by
  unfold readBehind
  rw [if_neg (by omega), store, List.getD_eq_default _ _ (by omega), Nat.add_sub_cancel' (by omega)]

section Read
variable {inode : UInt32} {arr : Bytes} {c : Nat} {pos pos' : UInt32}

/-- What the array holds after a read is a part of the file that ends where the read has stopped. -/
theorem read_suffix (hsuffix : firstBytes arr last <:+ (fileContents cfg.fs inode).take pos.toNat)
    (hsize : pos.toNat + c ≤ fileSize cfg.fs inode) (hpos' : pos'.toNat = pos.toNat + c) :
    firstBytes (readBehind arr last (fileSlice cfg.fs inode pos.toNat c)) (last + c)
      <:+ (fileContents cfg.fs inode).take pos'.toNat := by
  have harray := firstBytes_readBehind arr last (fileSlice cfg.fs inode pos.toNat c)
  rw [length_fileSlice] at harray
  rw [harray, hpos', List.take_add, fileSlice_eq_take hsize]
  obtain ⟨front, hfront⟩ := hsuffix
  exact ⟨front, by rw [← hfront, List.append_assoc]⟩

/-- A read from a text fills the array as the loop over lines needs it. -/
theorem filled_read (htext : Searchable (fileContents cfg.fs inode)) (hroom : last < grepBufSize)
    (hmark : grepBufSize ≤ fileSize cfg.fs inode → arr grepBufSize ≠ 10)
    (hsuffix : firstBytes arr last <:+ (fileContents cfg.fs inode).take pos.toNat)
    (hc : c = min (grepBufSize - last) (fileSize cfg.fs inode - pos.toNat))
    (hpos : pos.toNat ≤ fileSize cfg.fs inode) (hpos' : pos'.toNat = pos.toNat + c) :
    Filled (readBehind arr last (fileSlice cfg.fs inode pos.toNat c)) (last + c) (toRet c)
      ((fileContents cfg.fs inode).drop pos'.toNat) := by
  have hbufsize : grepBufSize = 1024 := rfl
  have hsuffix' := read_suffix hsuffix (by omega) hpos'
  have hpart := hsuffix'.isInfix.trans (List.take_prefix _ _).isInfix
  have hshort : c < grepBufSize - last → (fileContents cfg.fs inode).drop pos'.toNat = [] := by
    intro hless
    exact List.drop_eq_nil_of_le (by rw [length_fileContents]; omega)
  refine ⟨by omega, fun j hj => ?_, fun hfull => ?_, fun hless => hshort (by omega), fun hfull => ?_,
    fun hcnt => ?_⟩
  · exact htext.nonzero _ (hpart.subset (List.mem_map.2 ⟨j, List.mem_range.2 hj, rfl⟩))
  · -- a full array: the file has at least as many bytes
    have hlen := hsuffix'.length_le
    rw [length_firstBytes, List.length_take, length_fileContents] at hlen
    rw [readBehind_of_ge (by rw [length_fileSlice]; omega)]
    exact hmark (by omega)
  · refine htext.lines _ hpart ?_
    rw [length_firstBytes]
    exact hfull
  · rw [toRet_eq_zero (by omega)] at hcnt
    exact hshort (by omega)

end Read

theorem ensures_fileRound {inode : UInt32} {st : Bytes × Nat} (hok : TableOk table) (hi : 2 ≤ i.val)
    (hfile : WellFormedFile cfg.fs inode) (htext : Searchable (fileContents cfg.fs inode))
    (hpat : Spells s pat) (hne : pat ≠ []) (hfn : Spells fn fname) (hfnlen : fname.length ≤ 32) {fuel : Nat}
    (hfuel : grepBufSize < fuel) (h : SearchingFile cfg p i table inode pat fname total st m) :
    Prog.Ensures (Machine.serve cfg) (LeavesAlone p) (fileRound fuel s fn pat.length (toRet i.val) st)
      (fun r m' => r.elim
        (fun st' => SearchingFile cfg p i table inode pat fname total st' m' ∧
          fileSize cfg.fs inode - ((m'.kernel.pcb p).fdTable i).filePosition.toNat
            < fileSize cfg.fs inode - ((m.kernel.pcb p).fdTable i).filePosition.toNat)
        fun r => r = some 0 ∧
          ∃ fd, m'.At p (Function.update table i fd) total ∧ TableOk (Function.update table i fd) ∧
            fd.flags = fdOn) m := by
  obtain ⟨arr, last⟩ := st
  obtain ⟨hroom, hmark, pos, out, hpos, hat, hsuffix, htotal⟩ := h
  simp only at hroom hmark hsuffix htotal
  have hentry : ∀ pos, (Function.update table i ⟨some .filesys, inode.toInt32, pos, fdOn⟩ : FdTable) i
      = ⟨some .filesys, inode.toInt32, pos, fdOn⟩ := fun _ => Function.update_self ..
  have hsize : grepBufSize = 1024 := rfl
  refine Prog.ensures_bind.2 ((ensures_read_file hat (hok.openFile hi inode pos) hfile (hentry pos) hpos _
    (show grepBufSize - last < 2 ^ 31 by omega)).mono ?_)
  rintro r m₁ ⟨c, pos', hc, rfl, hpos', h₁⟩
  rw [Function.update_idem] at h₁
  have hsmall : c < 2 ^ 31 := by omega
  set slice := fileSlice cfg.fs inode pos.toNat c with hslice
  have hfill : Filled (readBehind arr last slice) (last + c) (toRet c)
      ((fileContents cfg.fs inode).drop pos'.toNat) :=
    filled_read htext hroom hmark hsuffix hc hpos hpos'
  -- what was carried over, what was read and what is left are the text that was left before
  have htotal' : out ++ grepText pat fname (firstBytes (readBehind arr last slice) (last + c)
      ++ (fileContents cfg.fs inode).drop pos'.toNat) = total := by
    have harray := firstBytes_readBehind arr last slice
    rw [hslice, length_fileSlice, ← hslice] at harray
    rw [harray, hpos', hslice, fileSlice_eq_take (by omega), List.append_assoc, ← List.drop_drop,
      List.take_append_drop]
    exact htotal
  simp only [if_neg (toRet_ne_failed hsmall), toInt_toRet hsmall, Int.toNat_natCast]
  refine (ensures_searchArray (hok.openFile hi inode pos') hpat hne hfn hfnlen hfill h₁ htotal' hfuel).mono ?_
  intro r m₂ hr
  split_ifs at hr with hcnt
  · -- nothing was read: the file is at its end
    obtain ⟨rfl, h₂⟩ := hr
    exact ⟨rfl, _, h₂, hok.openFile hi inode pos', rfl⟩
  · obtain ⟨st', rfl, hcarried⟩ := hr
    rw [toRet_eq_zero hsmall] at hcnt
    obtain ⟨out', h₂, hleft⟩ := hcarried.total
    -- the byte behind the array is never stored to
    have hstill : grepBufSize ≤ fileSize cfg.fs inode → st'.1 grepBufSize ≠ 10 := by
      intro hbig
      refine hcarried.mark ?_
      rw [readBehind_of_ge (by rw [hslice, length_fileSlice]; omega)]
      exact hmark hbig
    refine ⟨⟨hcarried.room, hstill, pos', out', by omega, h₂, ?_, hleft⟩, ?_⟩
    · exact hcarried.suffix.trans (read_suffix hsuffix (by omega) hpos')
    · rw [h₂.fdTable, hat.fdTable, hentry, hentry]
      simp only
      omega

/-- The clock is a file without a line. -/
theorem ensures_fileRound_clock (h : m.At p table out) (hok : TableOk table) (hon : (table i).flags = fdOn)
    (hjump : (table i).fdJump = some .rtc) (hpat : Spells s pat) (hne : pat ≠ []) (hfn : Spells fn fname)
    (hfnlen : fname.length ≤ 32) {fuel : Nat} (hfuel : grepBufSize < fuel) :
    Prog.Ensures (Machine.serve cfg) (LeavesAlone p) (fileRound fuel s fn pat.length (toRet i.val) (data, 0))
      (fun r m' => r = .inr (some 0) ∧ m'.At p table out) m := by
  refine Prog.ensures_bind.2 ((ensures_read_clock h hon hjump _
    (show grepBufSize - 0 < 2 ^ 31 by decide)).mono ?_)
  rintro r m₁ ⟨rfl, h₁⟩
  have hne' : (0 : Int32) ≠ -1 := by decide
  have hzero : (0 : Int32).toInt.toNat = 0 := by decide
  simp only [if_neg hne', hzero, Nat.not_lt_zero, if_false, Nat.zero_add, Nat.sub_zero]
  have hfill : Filled data 0 0 [] :=
    ⟨Nat.zero_le _, fun j hj => absurd hj (Nat.not_lt_zero j), fun hfull => absurd hfull (by decide),
      fun _ => rfl, fun hfull => absurd hfull (by decide), fun _ => rfl⟩
  have htotal : out ++ grepText pat fname (firstBytes data 0 ++ []) = out := by
    have hnil : firstBytes data 0 = [] := rfl
    rw [hnil, List.append_nil, grepText_nil hne, List.append_nil]
  refine (ensures_searchArray hok hpat hne hfn hfnlen hfill h₁ htotal hfuel).mono fun r m₂ hr => ?_
  rwa [if_pos rfl] at hr

/-! ## A file that is not text

The pieces of such a file may be mixed up when they are moved to the front. The search comes to its end all
the same and leaves nothing behind but what it has written. -/

/-- The process has written more. -/
def WroteMore (p : Slot) (table : FdTable) (out : List UInt8) (m : Machine) : Prop :=
  ∃ more, m.At p table (out ++ more)

theorem wroteMore_refl (h : m.At p table out) : WroteMore p table out m := ⟨[], by rwa [List.append_nil]⟩

theorem ensures_fdputs_any (h : WroteMore p table out m) (hok : TableOk table) (buf : Bytes) {bound : Nat}
    (hbound : bound < 2 ^ 31) :
    Prog.Ensures (Machine.serve cfg) (LeavesAlone p) (ece391Fdputs 1 buf bound)
      (fun _ m' => WroteMore p table out m') m := by
  obtain ⟨more, hat⟩ := h
  have hlen : ece391Strlen buf bound ≤ bound := by
    have hscan := (Scan.scan_spec (fun i => buf i != 0) 0 bound).2.1
    rwa [Nat.zero_add] at hscan
  refine Prog.ensures_bind.2 ((ensures_write hat hok buf (lt_of_le_of_lt hlen hbound)).mono ?_)
  rintro r m' ⟨-, hat'⟩
  exact ⟨_, by rwa [List.append_assoc] at hat'⟩

theorem ensures_searchLine_any (h : WroteMore p table out m) (hok : TableOk table) (sLen lineStart n check : Nat) :
    Prog.Ensures (Machine.serve cfg) (LeavesAlone p) (searchLine s fn data sLen lineStart n check)
      (fun _ m' => WroteMore p table out m') m := by
  induction n generalizing check with
  | zero => exact h
  | succ n ih =>
      rw [searchLine]
      split_ifs
      · refine Prog.ensures_bind.2 ((ensures_fdputs_any h hok fn (by decide)).mono fun _ m₁ h₁ => ?_)
        refine Prog.ensures_bind.2 ((ensures_fdputs_any h₁ hok _ (by decide)).mono fun _ m₂ h₂ => ?_)
        refine Prog.ensures_bind.2 ((ensures_fdputs_any h₂ hok _ (by decide)).mono fun _ m₃ h₃ => ?_)
        exact ensures_fdputs_any h₃ hok _ (by decide)
      · exact ih (check + 1)

theorem ensures_lineRound_any (h : WroteMore p table out m) (hok : TableOk table) (sLen : Nat)
    (hsize : st.last ≤ grepBufSize) :
    Prog.Ensures (Machine.serve cfg) (LeavesAlone p) (lineRound s fn sLen cnt st)
      (fun r m' => WroteMore p table out m' ∧ r.elim
        (fun st' => st'.last = st.last ∧ st'.lineStart < st.last ∧ st.lineStart < st'.lineStart)
        fun st' => st'.2 < grepBufSize) m := by
  have hroom : 0 < grepBufSize := by decide
  have hscan := (Scan.scan_spec (fun i => st.data i != 10) st.lineStart (st.last - st.lineStart)).1
  unfold lineRound
  simp only
  set lineEnd := Scan.scan (fun i => st.data i != 10) st.lineStart (st.last - st.lineStart)
  by_cases hcarry : st.data lineEnd ≠ 10 ∧ cnt ≠ 0 ∧ st.lineStart ≠ 0
  · rw [if_pos hcarry]
    refine ⟨h, ?_⟩
    simp only [Sum.elim_inr]
    omega
  · rw [if_neg hcarry]
    refine Prog.ensures_bind.2 ((ensures_searchLine_any h hok sLen _ _ _).mono fun _ m₁ h₁ => ?_)
    split_ifs with hdone
    · exact ⟨h₁, hroom⟩
    · exact ⟨h₁, rfl, Nat.lt_of_not_le hdone, Nat.lt_succ_of_le hscan⟩

theorem ensures_searchArray_any (h : WroteMore p table out m) (hok : TableOk table) (sLen : Nat)
    (hsize : last ≤ grepBufSize) {fuel : Nat} (hfuel : grepBufSize < fuel) :
    Prog.Ensures (Machine.serve cfg) (LeavesAlone p) (searchArray fuel s fn sLen cnt data last)
      (fun r m' => WroteMore p table out m' ∧
        if cnt = 0 then r = .inr (some 0) else ∃ st, r = .inl st ∧ st.2 < grepBufSize) m := by
  refine Prog.ensures_bind.2 ((Prog.Ensures.iterate
    (I := fun st m => WroteMore p table out m ∧ st.last = last)
    (v := fun st _ => last - st.lineStart)
    (Q := fun st m' => WroteMore p table out m' ∧ st.2 < grepBufSize)
    ?_ (lt_of_le_of_lt (Nat.sub_le _ _) (lt_of_le_of_lt hsize hfuel)) ⟨h, rfl⟩).mono ?_)
  · rintro st m ⟨hm, rfl⟩
    refine (ensures_lineRound_any hm hok sLen hsize).mono ?_
    rintro (st' | st') m' ⟨hm', hst'⟩
    · obtain ⟨hsame, hlt, hgt⟩ := hst'
      exact ⟨⟨hm', hsame⟩, by omega⟩
    · exact ⟨hm', hst'⟩
  · rintro r m₁ ⟨st, rfl, hm₁, hst⟩
    simp only
    split_ifs with hcnt
    · exact ⟨hm₁, rfl⟩
    · exact ⟨hm₁, st, rfl, hst⟩

/-- While any file is searched. -/
def ReadingOn (cfg : Config) (p : Slot) (i : FdIndex) (table : FdTable) (inode : UInt32) (out : List UInt8)
    (st : Bytes × Nat) (m : Machine) : Prop :=
  st.2 < grepBufSize ∧ ∃ pos : UInt32, pos.toNat ≤ fileSize cfg.fs inode ∧
    WroteMore p (Function.update table i ⟨some .filesys, inode.toInt32, pos, fdOn⟩) out m

theorem ensures_fileRound_any {inode : UInt32} {st : Bytes × Nat} (hok : TableOk table) (hi : 2 ≤ i.val)
    (hfile : WellFormedFile cfg.fs inode) (sLen : Nat) {fuel : Nat} (hfuel : grepBufSize < fuel)
    (h : ReadingOn cfg p i table inode out st m) :
    Prog.Ensures (Machine.serve cfg) (LeavesAlone p) (fileRound fuel s fn sLen (toRet i.val) st)
      (fun r m' => r.elim
        (fun st' => ReadingOn cfg p i table inode out st' m' ∧
          fileSize cfg.fs inode - ((m'.kernel.pcb p).fdTable i).filePosition.toNat
            < fileSize cfg.fs inode - ((m.kernel.pcb p).fdTable i).filePosition.toNat)
        fun r => r = some 0 ∧ ∃ fd : Fd, fd.flags = fdOn ∧ TableOk (Function.update table i fd) ∧
          WroteMore p (Function.update table i fd) out m') m := by
  obtain ⟨hroom, pos, hpos, more, hat⟩ := h
  have hsize : grepBufSize = 1024 := rfl
  have hentry : ∀ pos, (Function.update table i ⟨some .filesys, inode.toInt32, pos, fdOn⟩ : FdTable) i
      = ⟨some .filesys, inode.toInt32, pos, fdOn⟩ := fun _ => Function.update_self ..
  refine Prog.ensures_bind.2 ((ensures_read_file hat (hok.openFile hi inode pos) hfile (hentry pos) hpos _
    (show grepBufSize - st.2 < 2 ^ 31 by omega)).mono ?_)
  rintro r m₁ ⟨c, pos', hc, rfl, hpos', h₁⟩
  rw [Function.update_idem] at h₁
  have hsmall : c < 2 ^ 31 := by omega
  simp only [if_neg (toRet_ne_failed hsmall), toInt_toRet hsmall, Int.toNat_natCast]
  refine (ensures_searchArray_any ⟨more, h₁⟩ (hok.openFile hi inode pos') sLen (by omega) hfuel).mono ?_
  rintro r m₂ ⟨h₂, hr⟩
  split_ifs at hr with hcnt
  · subst hr
    exact ⟨rfl, _, rfl, hok.openFile hi inode pos', h₂⟩
  · obtain ⟨st', rfl, hst'⟩ := hr
    rw [toRet_eq_zero hsmall] at hcnt
    refine ⟨⟨hst', pos', by omega, h₂⟩, ?_⟩
    obtain ⟨more', hat'⟩ := h₂
    rw [hat'.fdTable, hat.fdTable, hentry, hentry]
    simp only
    omega

/-! ## `do_one_file` -/

/-- The largest size of a file. -/
def maxFileSize : Nat := maxInodeDataBlocks * maxCharsInData

/-- What is to be written for a directory entry: nothing for the clock, and the lines found in a text. With
    a line break in the byte behind the array (`marked`) that is so for the texts that do not fill it. -/
def IsFileBlock (fs : FileSystem) (marked : Prop) (pat fname : List UInt8) (found : Dentry)
    (block : List UInt8) : Prop :=
  if found.fileType = 0 then block = []
  else Searchable (fileContents fs found.inodeIdx) → (grepBufSize ≤ fileSize fs found.inodeIdx → ¬ marked) →
    block = grepText pat fname (fileContents fs found.inodeIdx)

theorem IsFileBlock.imp {fs : FileSystem} {marked marked' : Prop} {found : Dentry} {block : List UInt8}
    (h : IsFileBlock fs marked pat fname found block) (himp : marked → marked') :
    IsFileBlock fs marked' pat fname found block := by
  unfold IsFileBlock at h ⊢
  split_ifs at h ⊢
  · exact h
  · exact fun htext hmark => h htext fun hbig hmarked => hmark hbig (himp hmarked)

/-- The loop of `do_one_file` on the descriptor that has just been opened. -/
theorem ensures_fileLoop (hok : TableOk table) (hi : 2 ≤ i.val) {found : Dentry}
    (hat : m.At p (Function.update table i (openEntry found)) out) (hnodir : found.fileType ≠ 1)
    (hfile : found.fileType ≠ 0 → WellFormedFile cfg.fs found.inodeIdx) (hpat : Spells s pat) (hne : pat ≠ [])
    (hfn : Spells fn fname) (hfnlen : fname.length ≤ 32) {fuel : Nat} (hfuel : maxFileSize < fuel) :
    Prog.Ensures (Machine.serve cfg) (LeavesAlone p)
      (Prog.iterate (fileRound fuel s fn pat.length (toRet i.val)) fuel (data, 0))
      (fun r m' => r = some (some 0) ∧ ∃ (fd : Fd) (block : List UInt8), fd.flags = fdOn ∧
        TableOk (Function.update table i fd) ∧ m'.At p (Function.update table i fd) (out ++ block) ∧
        IsFileBlock cfg.fs (data grepBufSize = 10) pat fname found block) m := by
  have hbuf : grepBufSize < fuel := lt_trans (by decide) hfuel
  have hroom : 0 < grepBufSize := by decide
  by_cases hclock : found.fileType = 0
  · have hentry : openEntry found = ⟨some .rtc, -1, 0, fdOn⟩ := by simp [openEntry, hclock]
    have htable := hok.openEntry hi found
    rw [hentry] at hat htable
    have hself : (Function.update table i ⟨some .rtc, -1, 0, fdOn⟩ : FdTable) i = ⟨some .rtc, -1, 0, fdOn⟩ :=
      Function.update_self ..
    -- the clock is at its end in the first round
    refine (Prog.Ensures.iterate
      (I := fun st m => st = (data, 0) ∧ m.At p (Function.update table i ⟨some .rtc, -1, 0, fdOn⟩) out)
      (v := fun _ _ => 0)
      (Q := fun r m' => r = some 0 ∧ m'.At p (Function.update table i ⟨some .rtc, -1, 0, fdOn⟩) out)
      ?_ (by omega) ⟨rfl, hat⟩).mono ?_
    · rintro st m ⟨rfl, hm⟩
      refine (ensures_fileRound_clock hm htable (by rw [hself]) (by rw [hself]) hpat hne hfn hfnlen
        hbuf).mono ?_
      rintro r m' ⟨rfl, hm'⟩
      exact ⟨rfl, hm'⟩
    · rintro r m' ⟨status, rfl, rfl, hm'⟩
      exact ⟨rfl, _, [], rfl, htable, by rwa [List.append_nil], by rw [IsFileBlock, if_pos hclock]⟩
  · have hentry : openEntry found = ⟨some .filesys, found.inodeIdx.toInt32, 0, fdOn⟩ := by
      simp [openEntry, hclock, hnodir]
    rw [hentry] at hat
    have hwell := hfile hclock
    have hrounds := lt_of_le_of_lt (Nat.sub_le (fileSize cfg.fs found.inodeIdx)
      ((m.kernel.pcb p).fdTable i).filePosition.toNat) (lt_of_le_of_lt hwell.size_le hfuel)
    by_cases htext : Searchable (fileContents cfg.fs found.inodeIdx) ∧
        (grepBufSize ≤ fileSize cfg.fs found.inodeIdx → data grepBufSize ≠ 10)
    · -- a text: what is searched and what is left of it make up the whole
      obtain ⟨htext, hmark⟩ := htext
      have hnil : firstBytes data 0 = [] := rfl
      refine (Prog.Ensures.iterate
        (I := SearchingFile cfg p i table found.inodeIdx pat fname
          (out ++ grepText pat fname (fileContents cfg.fs found.inodeIdx)))
        (v := fun _ m => fileSize cfg.fs found.inodeIdx - ((m.kernel.pcb p).fdTable i).filePosition.toNat)
        (Q := fun r m' => r = some 0 ∧ ∃ fd : Fd, m'.At p (Function.update table i fd)
          (out ++ grepText pat fname (fileContents cfg.fs found.inodeIdx)) ∧
          TableOk (Function.update table i fd) ∧ fd.flags = fdOn)
        (fun st m hm => ensures_fileRound hok hi hwell htext hpat hne hfn hfnlen hbuf hm) hrounds
        ⟨hroom, hmark, 0, out, Nat.zero_le _, hat, hnil ▸ List.nil_suffix, rfl⟩).mono ?_
      rintro r m' ⟨status, rfl, rfl, fd, hm', htable, hon⟩
      exact ⟨rfl, fd, _, hon, htable, hm', by rw [IsFileBlock, if_neg hclock]; exact fun _ _ => rfl⟩
    · -- any other file: the loop comes to its end
      refine (Prog.Ensures.iterate (I := ReadingOn cfg p i table found.inodeIdx out)
        (v := fun _ m => fileSize cfg.fs found.inodeIdx - ((m.kernel.pcb p).fdTable i).filePosition.toNat)
        (Q := fun r m' => r = some 0 ∧ ∃ fd : Fd, fd.flags = fdOn ∧ TableOk (Function.update table i fd) ∧
          WroteMore p (Function.update table i fd) out m')
        (fun st m hm => ensures_fileRound_any hok hi hwell pat.length hbuf hm) hrounds
        ⟨hroom, 0, Nat.zero_le _, wroteMore_refl hat⟩).mono ?_
      rintro r m' ⟨status, rfl, rfl, fd, hon, htable, more, hm'⟩
      refine ⟨rfl, fd, more, hon, htable, hm', ?_⟩
      rw [IsFileBlock, if_neg hclock]
      exact fun h hmark => absurd ⟨h, hmark⟩ htext

theorem ensures_doOneFile (h : m.At p table out) (hok : TableOk table) (hfree : getFdIndex table = some i)
    (hclosed : table i = Fd.closed) {found : Dentry}
    (hname : readDentryByName cfg.fs fn ⟨fun _ => 0, 0, 0⟩ = some found) (hnodir : found.fileType ≠ 1)
    (hfile : found.fileType ≠ 0 → WellFormedFile cfg.fs found.inodeIdx) (hpat : Spells s pat) (hne : pat ≠ [])
    (hpatlen : pat.length ≤ grepBufSize) (hfn : Spells fn fname) (hfnlen : fname.length ≤ 32) {fuel : Nat}
    (hfuel : maxFileSize < fuel) :
    Prog.Ensures (Machine.serve cfg) (LeavesAlone p) (doOneFile fuel s fn data)
      (fun r m' => r = some 0 ∧ ∃ block, m'.At p table (out ++ block) ∧
        IsFileBlock cfg.fs (data grepBufSize = 10) pat fname found block) m := by
  have hi : 2 ≤ i.val := (getFdIndex_eq_some.1 hfree).1
  have hnofd : toRet i.val ≠ -1 := toRet_fdIndex_ne i
  have hstrlen : ece391Strlen s grepBufSize = pat.length := hpat.scan hpatlen
  unfold doOneFile
  simp only [hstrlen]
  refine Prog.ensures_bind.2 ((ensures_open h hfree (d := ⟨fun _ => 0, 0, 0⟩)).mono ?_)
  intro fd m₁ hopen
  rw [hname] at hopen
  obtain ⟨rfl, h₁⟩ := hopen
  simp only [if_neg hnofd]
  refine Prog.ensures_bind.2 ((ensures_fileLoop hok hi h₁ hnodir hfile hpat hne hfn hfnlen hfuel).mono ?_)
  rintro r m₂ ⟨rfl, fd, block, hon, hok₂, h₂, hblock⟩
  simp only [Option.join_some, ne_eq, not_true_eq_false, if_false]
  refine Prog.ensures_bind.2 ((ensures_close h₂ hok₂ hi (by rw [Function.update_self]; exact hon)).mono ?_)
  rintro r m₃ ⟨rfl, h₃⟩
  rw [Function.update_idem, ← hclosed, Function.update_eq_self] at h₃
  have hne' : (0 : Int32) ≠ -1 := by decide
  simp only [if_neg hne']
  exact ⟨rfl, block, h₃, hblock⟩

/-! ## The whole program -/

/-- What is to be written for a name in the directory: nothing for a name with a dot at its front. -/
def IsNameBlock (fs : FileSystem) (marked : Prop) (pat fname block : List UInt8) : Prop :=
  if fname.head? = some 46 then block = []
  else ∃ found, readDentryByName fs (cstr fname) ⟨fun _ => 0, 0, 0⟩ = some found ∧
    IsFileBlock fs marked pat fname found block

/-- The byte that `do_one_file` finds behind its array is a line break, for some file. -/
def Marked (junk : Nat → Bytes) : Prop := ∃ n, junk n grepBufSize = 10

/-- The names that are not skipped are those of files, or of the clock. -/
def FilesOnly (fs : FileSystem) : Prop :=
  ∀ fname ∈ fs.namesRead, fname.head? ≠ some 46 →
    ∃ found, readDentryByName fs (cstr fname) ⟨fun _ => 0, 0, 0⟩ = some found ∧ found.fileType ≠ 1 ∧
      (found.fileType ≠ 0 → WellFormedFile fs found.inodeIdx)

/-- A name that has been read into the buffer, with its terminator. -/
theorem spells_nameRead {fs : FileSystem} (hin : fname ∈ fs.namesRead) (buf : Bytes) :
    Spells (Function.update (store buf fname) fname.length 0) fname := by
  have hname : fname ∈ fs.names := (List.takeWhile_prefix _).subset hin
  obtain ⟨j, -, rfl⟩ := List.mem_map.1 hname
  have hnonzero : ∀ c ∈ (fs.entries j).name, c ≠ 0 := by
    intro c hc
    obtain ⟨k, hk, rfl⟩ := List.mem_map.1 hc
    exact (nameLength_spec _).2.1 k (List.mem_range.1 hk)
  refine ⟨fun k hk => ?_, hnonzero⟩
  rcases Nat.eq_or_lt_of_le hk with rfl | hlt
  · rw [Function.update_self, List.getD_eq_default _ _ le_rfl]
  · rw [Function.update_of_ne hlt.ne, store_of_lt hlt, List.getD_eq_getElem _ _ hlt]

theorem ensures_grepRound (hfiles : FilesOnly cfg.fs) (hpat : Spells s pat) (hne : pat ≠ [])
    (hpatlen : pat.length ≤ grepBufSize) {junk : Nat → Bytes} {fuel : Nat}
    (hfuel : maxFileSize < fuel) (st : Bytes × Nat)
    (h : NamesWritten cfg p 2 fdTableInit (IsNameBlock cfg.fs (Marked junk) pat) m) :
    Prog.Ensures (Machine.serve cfg) (LeavesAlone p) (grepRound fuel junk s (toRet (2 : FdIndex).val) st)
      (fun r m' => r.elim
        (fun _ => NamesWritten cfg p 2 fdTableInit (IsNameBlock cfg.fs (Marked junk) pat) m' ∧
          namesLeft cfg p 2 m' < namesLeft cfg p 2 m)
        fun r => r = some 0 ∧
          BlockForEach (IsNameBlock cfg.fs (Marked junk) pat) cfg.fs.namesRead (output m'.log)) m := by
  have hlong : maxNameCharacters = 32 := rfl
  refine Prog.ensures_bind.2 ((ensures_read_names h tableOk_init (by decide) st.1 (n := 32) (by decide)
    (by decide)).mono ?_)
  rintro r m₁ (⟨hzero, hout⟩ | ⟨fname, pos, out, hin, rfl, hnonempty, hlen, h₁, hnext⟩)
  · simp only [hzero, if_true]
    exact ⟨rfl, hout⟩
  · have hcnt : fname.length < 2 ^ 31 := by omega
    have hzero : toRet fname.length ≠ 0 := by
      rwa [Ne, toRet_eq_zero hcnt, List.length_eq_zero_iff]
    obtain ⟨c, rest, rfl⟩ := List.exists_cons_of_ne_nil hnonempty
    have hfirst : store st.1 (c :: rest) 0 = c := store_of_lt (Nat.succ_pos _)
    simp only [if_neg hzero, if_neg (toRet_ne_failed hcnt), toInt_toRet hcnt, Int.toNat_natCast, hfirst]
    by_cases hdot : c = 46
    · -- a name that begins with a dot
      rw [if_pos hdot]
      refine hnext m₁ [] ?_ (by rwa [List.append_nil])
      rw [IsNameBlock, if_pos (by rw [hdot]; rfl)]
    · have hhead : ¬ (c :: rest).head? = some 46 := fun heq => hdot (Option.some.inj heq)
      rw [if_neg hdot]
      obtain ⟨found, hfound, hnodir, hfile⟩ := hfiles _ hin hhead
      have hspells := spells_nameRead hin st.1
      have hsame : readDentryByName cfg.fs (Function.update (store st.1 (c :: rest)) (c :: rest).length 0)
          ⟨fun _ => 0, 0, 0⟩ = some found := by
        rw [← hfound]
        exact readDentryByName_congr _ hspells.get (by simp) _
      have hfree : getFdIndex (Function.update fdTableInit 2 ⟨some .dir, -1, pos, fdOn⟩) = some 3 := rfl
      refine Prog.ensures_bind.2 ((ensures_doOneFile h₁ (tableOk_init.openDir (by decide) pos) hfree rfl hsame
        hnodir hfile hpat hne hpatlen hspells hlen hfuel).mono ?_)
      rintro r m₂ ⟨rfl, block, h₂, hblock⟩
      simp only [ne_eq, not_true_eq_false, if_false]
      refine hnext m₂ block ?_ h₂
      rw [IsNameBlock, if_neg hhead]
      exact ⟨found, hfound, hblock.imp fun hmarked => ⟨st.2, hmarked⟩⟩

/-- What `grep` is to return and to write for a command's argument, which may be missing: for each name in
    the directory what belongs to it, with a pattern made of the argument, perhaps with fewer spaces at its
    end. -/
def GrepShows (fs : FileSystem) (junk : Nat → Bytes) (argument : List UInt8) (status : Int32)
    (out : List UInt8) : Prop :=
  if argument = [] then status = 3 ∧ out = ascii "could not read argument\n"
  else if readDentryByName fs (cstr (ascii ".")) ⟨fun _ => 0, 0, 0⟩ = none then
    status = 2 ∧ out = ascii "directory open failed\n"
  else
    status = 0 ∧ ∃ pat : List UInt8, pat.length ≤ argument.length ∧
      pat.rdropWhile (· == 32) = argument.rdropWhile (· == 32) ∧
      BlockForEach (IsNameBlock fs (Marked junk) pat) fs.namesRead out

/-- Without an argument, `grep` complains. -/
theorem ensures_grep_nothing (hat : m.At p fdTableInit []) (hzero : (m.kernel.pcb p).args 0 = 0) (fuel : Nat)
    (junk : Nat → Bytes) (search buf : Bytes) :
    Prog.Ensures (Machine.serve cfg) (LeavesAlone p) (grepMain fuel junk search buf)
      (fun r m' => ∃ status, r = some status ∧ GrepShows cfg.fs junk [] status (output m'.log)) m := by
  have hne : ¬ (-1 : Int32) = 0 := by decide
  refine Prog.ensures_bind.2
    ((ensures_getargs_empty hat hzero search (n := 1024) (by decide) (by decide)).mono ?_)
  rintro args m₁ ⟨hret, h₁⟩
  simp only [hret, ne_eq, hne, not_false_eq_true, if_true]
  refine (ensures_message h₁ tableOk_init (by simp [ascii]) (by decide) (some 3)).mono ?_
  rintro _ m' ⟨rfl, h₂⟩
  have hshows : GrepShows cfg.fs junk [] 3 (output m'.log) := by
    rw [GrepShows, if_pos rfl]
    exact ⟨rfl, h₂.output⟩
  exact ⟨3, rfl, hshows⟩

/-- With an argument, `grep` goes through the directory, if there is one. -/
theorem ensures_grep_pattern {argument : List UInt8} {c : UInt8} (hat : m.At p fdTableInit [])
    (hspells : Spells (m.kernel.pcb p).args argument) (hlen : argument.length < termBuffSize)
    (hhead : argument.head? = some c) (hspace : c ≠ 32)
    (hdir : ∀ found, readDentryByName cfg.fs (cstr (ascii ".")) ⟨fun _ => 0, 0, 0⟩ = some found →
      found.fileType = 1)
    (hfiles : FilesOnly cfg.fs) (junk : Nat → Bytes) (search buf : Bytes)
    {fuel : Nat} (hfuel : maxFileSize < fuel) (hnames : cfg.fs.numEntries.toNat < fuel) :
    Prog.Ensures (Machine.serve cfg) (LeavesAlone p) (grepMain fuel junk search buf)
      (fun r m' => ∃ status, r = some status ∧ GrepShows cfg.fs junk argument status (output m'.log)) m := by
  have hargs : argument ≠ [] := by
    rintro rfl
    cases hhead
  have hterm : termBuffSize = 128 := rfl
  have hsize : grepBufSize = 1024 := rfl
  unfold GrepShows
  simp only [if_neg hargs]
  refine Prog.ensures_bind.2 ((ensures_getargs hat hspells hlen hhead hspace search (n := 1024) (by decide)
    (by decide)).mono ?_)
  rintro args m₁ ⟨hret, h₁, pat, hpat, hpatlen, htext⟩
  simp only [hret, ne_eq, not_true_eq_false, if_false]
  have hne : pat ≠ [] := by
    rintro rfl
    have hnil : argument.rdropWhile (· == 32) = [] := htext.symm
    rw [List.rdropWhile_eq_nil_iff] at hnil
    exact hspace (by simpa using hnil c (List.mem_of_mem_head? hhead))
  refine Prog.ensures_bind.2 ((ensures_openDot h₁ hdir (IsNameBlock cfg.fs (Marked junk) pat)).mono ?_)
  rintro fd m₂ (⟨rfl, hnone, h₂⟩ | ⟨rfl, hfd, hsome, hnames₂⟩)
  · simp only [if_true, if_pos hnone]
    refine (ensures_message h₂ tableOk_init (by simp [ascii]) (by decide) (some 2)).mono ?_
    rintro _ m' ⟨rfl, h₃⟩
    exact ⟨2, rfl, rfl, h₃.output⟩
  · simp only [if_neg hfd, if_neg hsome]
    refine Prog.ensures_bind.2 ((Prog.Ensures.iterate
      (I := fun _ m => NamesWritten cfg p 2 fdTableInit (IsNameBlock cfg.fs (Marked junk) pat) m)
      (v := fun _ m => namesLeft cfg p 2 m)
      (Q := fun r m' => r = some 0 ∧
        BlockForEach (IsNameBlock cfg.fs (Marked junk) pat) cfg.fs.namesRead (output m'.log))
      (fun st m hm => ensures_grepRound hfiles hpat hne (by omega) hfuel st hm)
      (lt_of_le_of_lt (Nat.sub_le _ _) hnames) hnames₂).mono ?_)
    rintro r m₃ ⟨status, rfl, rfl, hout⟩
    exact ⟨0, rfl, rfl, pat, hpatlen, htext, hout⟩

theorem shell_wellFormed : WellFormedFile smallConfig.fs 0 where
  inode_lt := by decide
  size_le := by decide
  block_lt := fun b _ => by
    change (0 : UInt32) < 2
    decide

/-- The files of the small machine. -/
theorem smallConfig_filesOnly : FilesOnly smallConfig.fs := by
  have hnames : smallConfig.fs.namesRead = [ascii "shell", ascii "note", ascii ".", ascii "rtc"] := by
    decide +kernel
  intro fname hin hdot
  rw [hnames] at hin
  simp only [List.mem_cons, List.not_mem_nil, or_false] at hin
  rcases hin with rfl | rfl | rfl | rfl
  · exact ⟨fillDentry smallConfig.fs 0 ⟨fun _ => 0, 0, 0⟩, rfl, by decide, fun _ => shell_wellFormed⟩
  · exact ⟨fillDentry smallConfig.fs 1 ⟨fun _ => 0, 0, 0⟩, smallConfig_note _, by decide,
      fun _ => note_wellFormed⟩
  · exact absurd rfl hdot
  · exact ⟨fillDentry smallConfig.fs 3 ⟨fun _ => 0, 0, 0⟩, smallConfig_clock _, by decide,
      fun h => absurd rfl h⟩

end BaseOs
