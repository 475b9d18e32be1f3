import BaseOs.User.Others

set_option autoImplicit false

/-! # `cat` (`ece391cat.c`)

The program copies the file it is given to the terminal, 1024 bytes at a time. `cat_shows` says what it
writes and returns for every name and every directory, whatever happens between its calls: the contents
of a file, the names in the directory one after the other up to the first empty one, nothing for the
clock, and a message for a name that is not there or was not given. -/

namespace BaseOs

open Kernel Programs

/-! ## The program -/

/-- One round of the loop of `main`. -/
def catRound (fd : Int32) (buf : Bytes) : Program (Bytes ⊕ Int32) := do
  let answer ← ece391Read fd buf 1024
  let cnt := answer.ret
  if cnt = 0 then return .inr 0
  else if cnt = -1 then do
    ece391FdputsLit 1 (ascii "file read failed\n")
    return .inr 3
  else do
    let written ← ece391Write 1 answer.buf cnt
    if written = -1 then return .inr 3 else return .inl answer.buf

/-- `main`, with at most `fuel` rounds of the loop; `buf` is the former contents of the local array. -/
def catMain (fuel : Nat) (buf : Bytes) : Program (Option Int32) := do
  let args ← ece391Getargs buf 1024
  if args.ret ≠ 0 then do
    ece391FdputsLit 1 (ascii "could not read arguments\n")
    return some 3
  else do
    let fd ← ece391Open args.buf
    if fd = -1 then do
      ece391FdputsLit 1 (ascii "file not found\n")
      return some 2
    else Prog.iterate (catRound fd) fuel args.buf

/-! ## What it is to do -/

/-- The output and the status of `cat` for a name. -/
def catShows (fs : FileSystem) (name : Bytes) : List UInt8 × Int32 :=
  match readDentryByName fs name ⟨fun _ => 0, 0, 0⟩ with
  | none => (ascii "file not found\n", 2)
  | some found =>
    if found.fileType = 0 then ([], 0)
    else if found.fileType = 1 then (fs.namesRead.flatten, 0)
    else (fileContents fs found.inodeIdx, 0)

/-- The same for a command's argument, which may be missing. -/
def catAnswers (fs : FileSystem) (argument : List UInt8) : List UInt8 × Int32 :=
  if argument = [] then (ascii "could not read arguments\n", 3) else catShows fs (cstr argument)

variable {cfg : Config} {m : Machine} {p : Slot} {i : FdIndex} {table : FdTable} {inode : UInt32}
  {out : List UInt8}

/-! ## The loop on a file -/

/-- While a file is copied: the part before the position has been written. -/
structure CopyingFile (cfg : Config) (p : Slot) (i : FdIndex) (table : FdTable) (inode : UInt32)
    (m : Machine) : Prop where
  at_pos : ∃ pos : UInt32, pos.toNat ≤ fileSize cfg.fs inode ∧
    m.At p (Function.update table i ⟨some .filesys, inode.toInt32, pos, fdOn⟩)
      (fileSlice cfg.fs inode 0 pos.toNat)

theorem catRound_file (hok : TableOk table) (hi : 2 ≤ i.val) (hfile : WellFormedFile cfg.fs inode)
    (h : CopyingFile cfg p i table inode m) (buf : Bytes) :
    Prog.Ensures (Machine.serve cfg) (LeavesAlone p) (catRound (toRet i.val) buf)
      (fun r m' => r.elim
        (fun _ => CopyingFile cfg p i table inode m' ∧
          fileSize cfg.fs inode - (output m'.log).length < fileSize cfg.fs inode - (output m.log).length)
        fun status => status = 0 ∧ output m'.log = fileContents cfg.fs inode) m := by
  obtain ⟨pos, hpos, hat⟩ := h.at_pos
  have hentry : ∀ pos, (Function.update table i ⟨some .filesys, inode.toInt32, pos, fdOn⟩ : FdTable) i
      = ⟨some .filesys, inode.toInt32, pos, fdOn⟩ := fun _ => Function.update_self ..
  refine Prog.ensures_bind.2 ((ensures_read_file hat (hok.openFile hi inode pos) hfile (hentry pos) hpos buf
    (n := 1024) (by decide)).mono ?_)
  rintro r m₁ ⟨c, pos', hc, rfl, hpos', h₁⟩
  rw [Function.update_idem] at h₁
  simp only
  have hsmall : c < 2 ^ 31 := by omega
  split_ifs with hzero hneg
  · -- the end of the file
    rw [toRet_eq_zero hsmall] at hzero
    have hend : pos.toNat = fileSize cfg.fs inode := by omega
    refine ⟨rfl, ?_⟩
    rw [h₁.output, hend, fileSlice_zero_eq_take le_rfl, ← length_fileContents, List.take_length]
  · exact absurd hneg (toRet_ne_failed hsmall)
  · rw [toRet_eq_zero hsmall] at hzero
    refine Prog.ensures_bind.2 ((ensures_write h₁ (hok.openFile hi inode pos') _ hsmall).mono ?_)
    rintro written m₂ ⟨rfl, h₂⟩
    have hout : fileSlice cfg.fs inode 0 pos.toNat
        ++ firstBytes (store buf (fileSlice cfg.fs inode pos.toNat c)) c
          = fileSlice cfg.fs inode 0 pos'.toNat := by
      have hstored := map_store_range buf (fileSlice cfg.fs inode pos.toNat c)
      rw [length_fileSlice] at hstored
      have hslice := @fileSlice_append cfg.fs inode 0 pos.toNat c
      rw [Nat.zero_add] at hslice
      rw [firstBytes, hstored, hslice, hpos']
    rw [hout] at h₂
    rw [if_neg (toRet_ne_failed hsmall)]
    refine ⟨⟨pos', by omega, h₂⟩, ?_⟩
    rw [h₂.output, hat.output, length_fileSlice, length_fileSlice]
    omega

/-! ## The loop on the directory and on the clock -/

theorem catRound_dir (hok : TableOk table) (hi : 2 ≤ i.val)
    (h : NamesWritten cfg p i table (fun s block => block = s) m) (buf : Bytes) :
    Prog.Ensures (Machine.serve cfg) (LeavesAlone p) (catRound (toRet i.val) buf)
      (fun r m' => r.elim
        (fun _ => NamesWritten cfg p i table (fun s block => block = s) m' ∧
          namesLeft cfg p i m' < namesLeft cfg p i m)
        fun status => status = 0 ∧ output m'.log = cfg.fs.namesRead.flatten) m := by
  refine Prog.ensures_bind.2 ((ensures_read_names h hok hi buf (n := 1024) (by decide) (by decide)).mono ?_)
  rintro r m₁ (⟨hzero, hout⟩ | ⟨s, pos, out, -, rfl, hs, hlen, h₁, hnext⟩)
  · simp only [hzero, if_true]
    exact ⟨rfl, by rw [blockForEach_eq (f := id) hout, List.flatMap_id]⟩
  · have hsmall : s.length < 2 ^ 31 := by
      unfold maxNameCharacters at hlen
      omega
    have hzero : toRet s.length ≠ 0 := by
      rwa [Ne, toRet_eq_zero hsmall, List.length_eq_zero_iff]
    simp only [if_neg hzero, if_neg (toRet_ne_failed hsmall)]
    refine Prog.ensures_bind.2 ((ensures_write h₁ (hok.openDir hi pos) _ hsmall).mono ?_)
    rintro written m₂ ⟨rfl, h₂⟩
    rw [firstBytes, map_store_range] at h₂
    rw [if_neg (toRet_ne_failed hsmall)]
    exact hnext m₂ _ rfl h₂

theorem catRound_clock (hat : m.At p table out) (hon : (table i).flags = fdOn)
    (hjump : (table i).fdJump = some .rtc) (buf : Bytes) :
    Prog.Ensures (Machine.serve cfg) (LeavesAlone p) (catRound (toRet i.val) buf)
      (fun r m' => r = .inr 0 ∧ output m'.log = out) m := by
  refine Prog.ensures_bind.2 ((ensures_read_clock hat hon hjump buf (n := 1024) (by decide)).mono ?_)
  rintro r m₁ ⟨rfl, h₁⟩
  simp only [if_true]
  exact ⟨rfl, h₁.output⟩

/-! ## The whole program -/

/-- The loop from a descriptor that has just been opened. -/
theorem cat_loop (hok : TableOk table) (hi : 2 ≤ i.val) {found : Dentry}
    (hat : m.At p (Function.update table i (openEntry found)) [])
    (hfile : found.fileType ≠ 0 → found.fileType ≠ 1 → WellFormedFile cfg.fs found.inodeIdx)
    {fuel : Nat} (hnames : cfg.fs.numEntries.toNat < fuel)
    (hsize : fileSize cfg.fs found.inodeIdx < fuel) (buf : Bytes) :
    Prog.Ensures (Machine.serve cfg) (LeavesAlone p)
      (Prog.iterate (catRound (toRet i.val)) fuel buf)
      (fun r m' => r = some 0 ∧ output m'.log =
        if found.fileType = 0 then []
        else if found.fileType = 1 then cfg.fs.namesRead.flatten
        else fileContents cfg.fs found.inodeIdx) m := by
  by_cases hclock : found.fileType = 0
  · have hentry : openEntry found = ⟨some .rtc, -1, 0, fdOn⟩ := by simp [openEntry, hclock]
    rw [hentry] at hat
    simp only [if_pos hclock]
    have hself : (Function.update table i ⟨some .rtc, -1, 0, fdOn⟩ : FdTable) i
        = ⟨some .rtc, -1, 0, fdOn⟩ := Function.update_self ..
    -- the clock is at its end in the first round
    refine (Prog.Ensures.iterate (I := fun _ m => m.At p (Function.update table i ⟨some .rtc, -1, 0, fdOn⟩) [])
      (v := fun _ _ => 0) (Q := fun status m' => status = 0 ∧ output m'.log = [])
      (fun buf m hm => (catRound_clock hm (by rw [hself]) (by rw [hself]) buf).mono ?_)
      (by omega) hat).mono ?_
    · rintro r m' ⟨rfl, hout⟩
      exact ⟨rfl, hout⟩
    · rintro r m' ⟨status, rfl, rfl, hout⟩
      exact ⟨rfl, hout⟩
  · by_cases hdir : found.fileType = 1
    · have hentry : openEntry found = ⟨some .dir, -1, 0, fdOn⟩ := by simp [openEntry, hdir]
      rw [hentry] at hat
      simp only [if_neg hclock, if_pos hdir]
      -- the directory, name by name
      refine (Prog.Ensures.iterate (I := fun _ m => NamesWritten cfg p i table (fun s block => block = s) m)
        (v := fun _ m => namesLeft cfg p i m)
        (Q := fun status m' => status = 0 ∧ output m'.log = cfg.fs.namesRead.flatten)
        (fun buf m hm => catRound_dir hok hi hm buf)
        (lt_of_le_of_lt (Nat.sub_le _ _) hnames)
        (namesWritten_start hat)).mono ?_
      rintro r m' ⟨status, rfl, rfl, hout⟩
      exact ⟨rfl, hout⟩
    · have hentry : openEntry found = ⟨some .filesys, found.inodeIdx.toInt32, 0, fdOn⟩ := by
        simp [openEntry, hclock, hdir]
      rw [hentry] at hat
      simp only [if_neg hclock, if_neg hdir]
      -- a file, 1024 bytes at a time
      refine (Prog.Ensures.iterate (I := fun _ m => CopyingFile cfg p i table found.inodeIdx m)
        (v := fun _ m => fileSize cfg.fs found.inodeIdx - (output m.log).length)
        (Q := fun status m' => status = 0 ∧ output m'.log = fileContents cfg.fs found.inodeIdx)
        (fun buf m hm => catRound_file hok hi (hfile hclock hdir) hm buf)
        (lt_of_le_of_lt (Nat.sub_le _ _) hsize) ⟨0, Nat.zero_le _, hat⟩).mono ?_
      rintro r m' ⟨status, rfl, rfl, hout⟩
      exact ⟨rfl, hout⟩

/-- With a name, `cat` writes what it should and returns the status it should. -/
theorem ensures_cat_name (hcount : cfg.fs.CountsNames) {comm : Bytes} {c : UInt8}
    (hc : (argumentText comm).head? = some c) (hat : m.At p fdTableInit [])
    (hspells : Terminated.Spells (m.kernel.pcb p).args (argumentText comm))
    (hfiles : ∀ found, readDentryByName cfg.fs (cstr (argumentText comm)) ⟨fun _ => 0, 0, 0⟩ = some found →
      found.fileType ≠ 0 → found.fileType ≠ 1 → WellFormedFile cfg.fs found.inodeIdx)
    (buf : Bytes) {fuel : Nat} (hnames : cfg.fs.numEntries.toNat < fuel)
    (hsize : ∀ found, readDentryByName cfg.fs (cstr (argumentText comm)) ⟨fun _ => 0, 0, 0⟩ = some found →
      fileSize cfg.fs found.inodeIdx < fuel) :
    Prog.Ensures (Machine.serve cfg) (LeavesAlone p) (catMain fuel buf)
      (fun r m' => r = some (catShows cfg.fs (cstr (argumentText comm))).2 ∧
        output m'.log = (catShows cfg.fs (cstr (argumentText comm))).1) m := by
  have hfree : getFdIndex fdTableInit = some 2 := by decide
  refine Prog.ensures_bind.2 ((ensures_getargs hat hspells (length_argumentText_lt comm) hc
    (argumentText_head hc) buf (n := 1024) (by decide) (by decide)).mono ?_)
  rintro args m₁ ⟨hret, h₁, s, hs, -, htext⟩
  simp only [hret, ne_eq, not_true_eq_false, if_false]
  refine Prog.ensures_bind.2 ((ensures_open h₁ hfree (d := ⟨fun _ => 0, 0, 0⟩)).mono ?_)
  intro fd m₂ h₂
  rw [readDentryByName_args hcount hs htext] at h₂
  unfold catShows
  cases hcase : readDentryByName cfg.fs (cstr (argumentText comm)) ⟨fun _ => 0, 0, 0⟩ with
  | none =>
      rw [hcase] at h₂
      obtain ⟨rfl, h₂⟩ := h₂
      simp only [if_true]
      exact (ensures_message h₂ tableOk_init (by simp [ascii]) (by decide) (some 2)).mono
        fun _ _ h₃ => ⟨h₃.1, h₃.2.output⟩
  | some found =>
      rw [hcase] at h₂
      obtain ⟨rfl, h₂⟩ := h₂
      have hne : toRet (2 : FdIndex).val ≠ -1 := by decide
      simp only [if_neg hne]
      refine (cat_loop tableOk_init (by decide) h₂ (hfiles found hcase) hnames (hsize found hcase)
        args.buf).mono ?_
      rintro r m' ⟨rfl, hout⟩
      split_ifs at hout ⊢ with hclock hdir
      · exact ⟨rfl, hout⟩
      · exact ⟨rfl, hout⟩
      · exact ⟨rfl, hout⟩

/-- Without a name, `cat` complains. -/
theorem ensures_cat_nothing (hat : m.At p fdTableInit []) (hzero : (m.kernel.pcb p).args 0 = 0) (fuel : Nat)
    (buf : Bytes) :
    Prog.Ensures (Machine.serve cfg) (LeavesAlone p) (catMain fuel buf)
      (fun r m' => r = some 3 ∧ output m'.log = ascii "could not read arguments\n") m := by
  have hne : ¬ (-1 : Int32) = 0 := by decide
  refine Prog.ensures_bind.2
    ((ensures_getargs_empty hat hzero buf (n := 1024) (by decide) (by decide)).mono ?_)
  rintro args m₁ ⟨hret, h₁⟩
  simp only [hret, ne_eq, hne, not_false_eq_true, if_true]
  exact (ensures_message h₁ tableOk_init (by simp [ascii]) (by decide) (some 3)).mono
    fun _ _ h₂ => ⟨h₂.1, h₂.2.output⟩

end BaseOs
