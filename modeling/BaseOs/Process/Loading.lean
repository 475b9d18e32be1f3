import BaseOs.FileSystem.Requests
import BaseOs.Process.Table

set_option autoImplicit false

/-! # Loading a program

`execute` reads the file twice: 28 bytes into a buffer on its stack, for the magic number and the entry
point, and the whole file into the program page. It does not compare the number of bytes it got with the
number it wanted, neither time. `loadedRight_iff` says for which files the program page and the entry
point come out right all the same, `decidedByFile_iff` for which commands the decision to run the file
does not depend on what the stack held before. -/

namespace BaseOs

open Kernel

variable {cfg : Config} {k k' : Kernel} {comm : Option Bytes} {loc : Locals} {d : Dentry}
  {fs : FileSystem} {inode : UInt32}

/-! ## Values of bytes -/

/-- The value of bytes with the lowest first. -/
def littleEndian (bytes : List UInt8) : Nat := Nat.ofDigits 256 (bytes.map UInt8.toNat)

theorem littleEndian_lt (bytes : List UInt8) : littleEndian bytes < 256 ^ bytes.length := by
  have hlt := @Nat.ofDigits_lt_base_pow_length 256 (bytes.map UInt8.toNat) (by decide) (by
    intro digit hdigit
    obtain ⟨b, -, rfl⟩ := List.mem_map.1 hdigit
    exact b.toNat_lt)
  rwa [List.length_map] at hlt

theorem littleEndian_concat (bytes : List UInt8) (b : UInt8) :
    littleEndian (bytes ++ [b]) = littleEndian bytes + 256 ^ bytes.length * b.toNat := by
  unfold littleEndian
  rw [List.map_append, Nat.ofDigits_append, List.length_map]
  simp

/-- The loop of `execute` that puts the entry point together, after `n` bytes. -/
theorem foldl_or_bytes (f : Nat → UInt8) {n : Nat} (hn : n ≤ 4) :
    ((List.range n).foldl (fun e j => e ||| ((f j).toUInt32 <<< UInt32.ofNat (8 * j))) 0).toNat
      = littleEndian ((List.range n).map f) := by
  induction n with
  | zero => rfl
  | succ n ih =>
      have hbound := littleEndian_lt ((List.range n).map f)
      rw [List.length_map, List.length_range] at hbound
      have hshift : ((f n).toUInt32 <<< UInt32.ofNat (8 * n)).toNat = 256 ^ n * (f n).toNat := by
        have hbyte := (f n).toNat_lt
        have hamount : (UInt32.ofNat (8 * n)).toNat = 8 * n :=
          UInt32.toNat_ofNat_of_lt' (Nat.lt_of_le_of_lt (by omega : 8 * n ≤ 24) (by decide))
        rw [UInt32.toNat_shiftLeft, hamount, UInt8.toNat_toUInt32,
          Nat.mod_eq_of_lt (by omega : 8 * n < 32), Nat.shiftLeft_eq, Nat.pow_mul, Nat.mul_comm]
        apply Nat.mod_eq_of_lt
        calc 256 ^ n * (f n).toNat
          _ < 256 ^ n * 256 := Nat.mul_lt_mul_of_pos_left hbyte (by positivity)
          _ = 256 ^ (n + 1) := (Nat.pow_succ 256 n).symm
          _ ≤ 256 ^ 4 := Nat.pow_le_pow_right (by decide) hn
      rw [List.range_succ, List.foldl_append, List.map_append]
      simp only [List.foldl_cons, List.foldl_nil, List.map_cons, List.map_nil]
      rw [UInt32.toNat_or, ih (by omega), hshift, littleEndian_concat, List.length_map,
        List.length_range, Nat.or_comm, Nat.add_comm]
      -- the bytes so far lie below the new one
      rw [show (256 : Nat) = 2 ^ 8 from rfl, ← Nat.pow_mul] at hbound ⊢
      exact (Nat.two_pow_add_eq_or_of_lt hbound _).symm

theorem entryPointOf_toNat (buf : Bytes) :
    (entryPointOf buf).toNat = littleEndian ((List.range 4).map fun j => buf (24 + j)) :=
  foldl_or_bytes (fun j => buf (24 + j)) le_rfl

/-! ## The bytes a file has -/

/-- Byte `j` of a file, if there is one: it lies before the end, in one of the `D` data blocks. -/
def fileByte? (fs : FileSystem) (inode : UInt32) (j : Nat) : Option UInt8 :=
  if j < fileSize fs inode ∧
      (fs.inodes inode.toNat).datablockIdx (j / maxCharsInData) < fs.numDataBlocks then
    some (fileByte fs inode j)
  else none

theorem fileByte?_eq_some {j : Nat} {b : UInt8} :
    fileByte? fs inode j = some b ↔ (j < fileSize fs inode ∧
      (fs.inodes inode.toNat).datablockIdx (j / maxCharsInData) < fs.numDataBlocks) ∧
        fileByte fs inode j = b := by
  unfold fileByte?
  split_ifs with h
  · simp only [h, true_and, Option.some.injEq, and_self]
  · simp [h]

/-- A read of the header that does not fail has accepted the first block. -/
theorem firstBlock_le (h : ¬ ReadFails fs inode 0 bytesToRead) (hsize : 0 < fileSize fs inode) :
    (fs.inodes inode.toNat).datablockIdx 0 ≤ fs.numDataBlocks :=
  UInt32.not_lt.1 fun hbad => h (.badFirst hsize (by decide) (Nat.zero_le _) hbad)

/-- What the read of the header stores, if it does not fail: the file's first bytes, up to 28. -/
theorem readData_header (h : ¬ ReadFails fs inode 0 bytesToRead) :
    (readData fs inode 0 bytesToRead).data
      = fileSlice fs inode 0 (min bytesToRead.toNat (fileSize fs inode)) := by
  have hinode : inode < fs.numInodes := UInt32.not_le.1 fun hle => h (.noInode hle)
  rw [readData_zero_of_accepted hinode]
  intro b hb
  -- the header lies in the first block
  have hsmall : min bytesToRead.toNat (fileSize fs inode) ≤ 28 := Nat.min_le_left _ _
  obtain rfl : b = 0 := by
    unfold maxCharsInData at hb
    omega
  rw [Nat.zero_mul] at hb
  exact firstBlock_le h (Nat.lt_min.1 hb).2

/-- What the read of a file all of whose blocks are there stores. -/
theorem readData_whole (hinode : inode < fs.numInodes) (hblocks : ∀ b < numBlocks fs inode,
      (fs.inodes inode.toNat).datablockIdx b < fs.numDataBlocks) :
    (readData fs inode 0 (fs.inodes inode.toNat).fileSize).data
      = fileSlice fs inode 0 (fileSize fs inode) := by
  have hsize : min (fs.inodes inode.toNat).fileSize.toNat (fileSize fs inode) = fileSize fs inode :=
    Nat.min_self _
  rw [readData_zero_of_accepted hinode, hsize]
  intro b hb
  rw [hsize] at hb
  exact UInt32.le_of_lt (hblocks b (lt_numBlocks.2 hb))

/-! ## Up to the check of the magic number -/

/-- The directory entry the command names: the one `execute` finds for its first word. -/
def namedEntry (cfg : Config) (comm : Option Bytes) (loc : Locals) : Option Dentry := do
  let c ← comm
  let fileName ← copyFileName (commandWord c loc) loc.fileName
  readDentryByName cfg.fs fileName loc.dentry

/-- The command gets as far as the check of the magic number: it names a readable file of type 2, and a
    slot is free. -/
structure Checked (cfg : Config) (k : Kernel) (comm : Option Bytes) (loc : Locals) (d : Dentry) :
    Prop where
  named : namedEntry cfg comm loc = some d
  program : d.fileType = 2
  readable : ¬ ReadFails cfg.fs d.inodeIdx 0 bytesToRead
  slot : ∃ i, freeSlot k = some i

/-- The header buffer after the read. -/
def headerBuf (cfg : Config) (loc : Locals) (inode : UInt32) : Bytes :=
  store loc.buf (readData cfg.fs inode 0 bytesToRead).data

theorem namedEntry_eq_some : namedEntry cfg comm loc = some d ↔
    ∃ c fileName, comm = some c ∧ copyFileName (commandWord c loc) loc.fileName = some fileName ∧
      readDentryByName cfg.fs fileName loc.dentry = some d := by
  unfold namedEntry
  simp only [Option.bind_eq_bind, Option.bind_eq_some_iff, exists_and_left]

/-- A command that gets to the check goes on with the file it names. -/
theorem Checked.execute_eq (h : Checked cfg k comm loc d) :
    ∃ c fileName i, freeSlot k = some i ∧ readDentryByName cfg.fs fileName loc.dentry = some d ∧
      findProgram cfg (commandWord c loc) loc = .ok ⟨fileName, headerBuf cfg loc d.inodeIdx⟩ ∧
      execute cfg k comm loc = loadProgram cfg (setUp (withArgs k c loc) i) i
        ⟨fileName, headerBuf cfg loc d.inodeIdx⟩ loc := by
  obtain ⟨i, hi⟩ := h.slot
  obtain ⟨c, fileName, rfl, hcopy, hd⟩ := namedEntry_eq_some.1 h.named
  have hfile : findProgram cfg (commandWord c loc) loc
      = .ok ⟨fileName, headerBuf cfg loc d.inodeIdx⟩ :=
    findProgram_eq_ok.2
      ⟨hcopy, d, hd, h.program, fun hret => h.readable ((readData_fails_iff ..).1 hret), rfl⟩
  refine ⟨c, fileName, i, hi, hd, hfile, ?_⟩
  rw [execute_some, hfile, hi]

/-- A command that does not get there fails. -/
theorem execute_failed_of_not_checked (h : ∀ d, ¬ Checked cfg k comm loc d) :
    ∃ e k', execute cfg k comm loc = .failed e k' := by
  cases comm with
  | none => exact ⟨_, _, rfl⟩
  | some c =>
      rw [execute_some]
      cases hfile : findProgram cfg (commandWord c loc) loc with
      | error e => exact ⟨_, _, rfl⟩
      | ok file =>
          cases hi : freeSlot k with
          | none => exact ⟨_, _, rfl⟩
          | some i =>
              obtain ⟨hcopy, d, hd, htype, hret, -⟩ := findProgram_eq_ok.1 hfile
              refine absurd ⟨?_, htype, fun hfails => hret ?_, i, hi⟩ (h d)
              · exact namedEntry_eq_some.2 ⟨c, file.fileName, rfl, hcopy, hd⟩
              · exact (readData_fails_iff ..).2 hfails

/-! ## What is loaded -/

/-- The bytes the second read stores, for the file's size as the length. -/
def loadedBytes (cfg : Config) (inode : UInt32) : List UInt8 :=
  (readData cfg.fs inode 0 (cfg.fs.inodes inode.toNat).fileSize).data

/-- The program page holds the file, and the entry point is the one in its header. -/
structure LoadedRight (cfg : Config) (k k' : Kernel) (inode : UInt32) (entryPoint : UInt32) : Prop where
  /-- The bytes are stored one after the other from `PROGRAM_START` on, -/
  stored : storeVirt (kernelAddr cfg.lay k'.paging) programStart (loadedBytes cfg inode) k.mem
    = (k'.mem, false)
  /-- at most to the end of the page, -/
  confined : programStart + (loadedBytes cfg inode).length ≤ programPage + userPageSize
  /-- and no other byte of memory has changed. -/
  elsewhere : ∀ a, k'.mem a ≠ k.mem a → ∃ va, programStart ≤ va ∧ va < programPage + userPageSize ∧
    kernelAddr cfg.lay k'.paging va = some a
  complete : ∀ j < fileSize cfg.fs inode, ∃ a, kernelAddr cfg.lay k'.paging (programStart + j) = some a ∧
    fileByte? cfg.fs inode j = some (k'.mem a)
  entry : ∃ bytes : List UInt8, bytes.length = 4 ∧
    (∀ j < 4, bytes[j]? = fileByte? cfg.fs inode (24 + j)) ∧ entryPoint.toNat = littleEndian bytes

theorem loadProgram_stored {i : Slot} {file : ProgramFile} {entryPoint : UInt32}
    (hd : readDentryByName cfg.fs file.fileName loc.dentry = some d)
    (h : loadProgram cfg k i file loc = .started k' entryPoint) :
    storeVirt (kernelAddr cfg.lay k'.paging) programStart (loadedBytes cfg d.inodeIdx) k.mem
      = (k'.mem, false) := by
  unfold loadProgram at h
  split_ifs at h with hmagic
  simp only [hd] at h
  split_ifs at h with hfault hret
  simp only [ExecResult.started.injEq] at h
  obtain ⟨rfl, -⟩ := h
  exact Prod.ext rfl (Bool.eq_false_iff.2 hfault)

/-- A program that starts got to the check, with the entry point from the header buffer, and what the
    second read stored is in the program page of its slot. -/
theorem started_checked {entryPoint : UInt32}
    (h : execute cfg k comm loc = .started k' entryPoint) :
    ∃ d i, Checked cfg k comm loc d ∧ entryPoint = entryPointOf (headerBuf cfg loc d.inodeIdx) ∧
      k'.paging = addProcess k.paging (UInt32.ofNat (i : Slot).val) ∧
      storeVirt (kernelAddr cfg.lay k'.paging) programStart (loadedBytes cfg d.inodeIdx) k.mem
        = (k'.mem, false) := by
  by_cases hnone : ∀ d, ¬ Checked cfg k comm loc d
  · obtain ⟨e, k1, hfail⟩ := execute_failed_of_not_checked hnone
    rw [hfail] at h
    cases h
  · push Not at hnone
    obtain ⟨d, hd⟩ := hnone
    obtain ⟨c, fileName, i, -, hentry, -, hrun⟩ := hd.execute_eq
    rw [hrun] at h
    obtain ⟨hst, -, hpoint⟩ := loadProgram_started h
    have hstore := loadProgram_stored hentry h
    rw [(setUp_memory k c loc i).2] at hstore
    exact ⟨d, i, hd, hpoint, hst.paging, hstore⟩

/-- Where `PROGRAM_START` is in the memory of slot `i`. -/
def loadAddr (i : Slot) : Nat := 0x800000 + i.val * 0x400000 + (programStart - programPage)

theorem programStart_add {j : Nat} (hj : j < programRoom) :
    (programStart + j) % 2 ^ 32 = programStart + j ∧ programStart + j < programPage + userPageSize := by
  unfold programRoom at hj
  unfold programStart programPage userPageSize
  omega

theorem kernelAddr_load {i : Slot} (hpaging : k'.paging = addProcess k.paging (UInt32.ofNat i.val))
    {j : Nat} (hj : j < programRoom) :
    kernelAddr cfg.lay k'.paging (programStart + j) = some (loadAddr i + j) := by
  have hentry : k'.paging.pageDirectory processIdx = processEntry i := by
    rw [hpaging]
    exact addProcess_entry i
  have hlo : 0x08000000 ≤ programStart + j := le_trans (by decide) (Nat.le_add_right programStart j)
  rw [kernelAddr_program hentry hlo (programStart_add hj).2, Option.some.injEq]
  unfold loadAddr programStart programPage
  omega

/-- What was stored without a fault fits into the page. -/
theorem stored_length_le {i : Slot} {data : List UInt8} (hends : k.ProgramEnds)
    (hpaging : k'.paging = addProcess k.paging (UInt32.ofNat i.val))
    (hstore : storeVirt (kernelAddr cfg.lay k'.paging) programStart data k.mem = (k'.mem, false)) :
    data.length ≤ programRoom := by
  refine load_length_le ?_ hstore
  rw [hpaging, addProcess_of_ne (by decide)]
  exact hends

/-- A file whose blocks are all there has all its bytes. -/
theorem fileByte?_of_blocks (hblocks : ∀ b < numBlocks fs inode,
      (fs.inodes inode.toNat).datablockIdx b < fs.numDataBlocks) {j : Nat} (hj : j < fileSize fs inode) :
    fileByte? fs inode j = some (fileByte fs inode j) := by
  refine fileByte?_eq_some.2 ⟨⟨hj, hblocks _ (lt_numBlocks.2 ?_)⟩, rfl⟩
  exact lt_of_le_of_lt (Nat.div_mul_le_self _ _) hj

/-- The entry point of a file with a complete header. -/
theorem headerBuf_entryPoint (hread : ¬ ReadFails cfg.fs inode 0 bytesToRead)
    (hsize : 28 ≤ fileSize cfg.fs inode) (loc : Locals) :
    (entryPointOf (headerBuf cfg loc inode)).toNat
      = littleEndian ((List.range 4).map fun j => fileByte cfg.fs inode (24 + j)) := by
  have hmin : min bytesToRead.toNat (fileSize cfg.fs inode) = 28 := Nat.min_eq_left hsize
  rw [entryPointOf_toNat]
  congr 1
  apply List.map_congr_left
  intro j hj
  have hj' : j < 4 := List.mem_range.1 hj
  unfold headerBuf
  rw [readData_header hread, hmin, store_fileSlice, if_pos (by omega), Nat.zero_add]

/-- For every image and every program started in a reachable state: the program page holds the file and
    the entry point is the one in its header, exactly if the file is long enough to have a header and all
    its block numbers are below `D`. -/
theorem loadedRight_iff (hk : Reachable cfg k) {entryPoint : UInt32}
    (hnamed : namedEntry cfg comm loc = some d)
    (h : execute cfg k comm loc = .started k' entryPoint) :
    LoadedRight cfg k k' d.inodeIdx entryPoint ↔
      28 ≤ fileSize cfg.fs d.inodeIdx ∧ ∀ b < numBlocks cfg.fs d.inodeIdx,
        (cfg.fs.inodes d.inodeIdx.toNat).datablockIdx b < cfg.fs.numDataBlocks := by
  constructor
  · rintro ⟨-, -, -, hcomplete, bytes, hlen, hbytes, -⟩
    constructor
    · -- the entry point lies in bytes 24 to 27
      have hlast := hbytes 3 (by decide)
      rw [List.getElem?_eq_getElem (by omega), eq_comm, fileByte?_eq_some] at hlast
      exact hlast.1.1
    · intro b hb
      obtain ⟨a, -, hbyte⟩ := hcomplete _ (lt_numBlocks.1 hb)
      have hblock := (fileByte?_eq_some.1 hbyte).1.2
      rwa [Nat.mul_div_cancel _ (by decide)] at hblock
  · rintro ⟨hsize, hblocks⟩
    obtain ⟨d', i, hd, rfl, hpaging, hstore⟩ := started_checked h
    obtain rfl : d' = d := Option.some.inj (hd.named.symm.trans hnamed)
    have hroom := stored_length_le hk.programEnds hpaging hstore
    have hinode : d'.inodeIdx < cfg.fs.numInodes :=
      UInt32.not_le.1 fun hle => hd.readable (.noInode hle)
    have hwhole : loadedBytes cfg d'.inodeIdx
        = fileSlice cfg.fs d'.inodeIdx 0 (fileSize cfg.fs d'.inodeIdx) := readData_whole hinode hblocks
    have hmap : ∀ j < (loadedBytes cfg d'.inodeIdx).length,
        kernelAddr cfg.lay k'.paging ((programStart + j) % 2 ^ 32) = some (loadAddr i + j) := by
      intro j hj
      have hj' := lt_of_lt_of_le hj hroom
      rw [(programStart_add hj').1, kernelAddr_load hpaging hj']
    refine ⟨hstore, Nat.add_le_add_left hroom programStart, fun a ha => ?_, fun j hj => ?_, ?_⟩
    · by_contra hnone
      push Not at hnone
      refine ha (storeVirt_frame hstore fun j hj => ?_)
      obtain ⟨hmod, hinside⟩ := programStart_add (lt_of_lt_of_le hj hroom)
      rw [hmod]
      exact hnone _ (Nat.le_add_right _ _) hinside
    · have hj' : j < (loadedBytes cfg d'.inodeIdx).length := by rwa [hwhole, length_fileSlice]
      refine ⟨loadAddr i + j, kernelAddr_load hpaging (lt_of_lt_of_le hj' hroom), ?_⟩
      rw [fileByte?_of_blocks hblocks hj, storeVirt_get hstore hmap j hj']
      simp [hwhole, fileSlice]
    · refine ⟨_, ?_, fun j hj => ?_, headerBuf_entryPoint hd.readable hsize loc⟩
      · simp
      · rw [fileByte?_of_blocks hblocks (by omega)]
        simp [hj]

/-- The shell of the small machine. -/
theorem loadedRight_shell :
    ∃ d k' entryPoint, namedEntry smallConfig (some shellCommand) (localsAt 3) = some d ∧
      execute smallConfig smallBooted (some shellCommand) (localsAt 3) = .started k' entryPoint ∧
      LoadedRight smallConfig smallBooted k' d.inodeIdx entryPoint := by
  obtain ⟨k', entryPoint, hrun, -⟩ := @execute_shell smallConfig smallBooted (localsAt 3)
    smallConfig_hasShell _ smallBooted_freeSlot
  have hnamed : namedEntry smallConfig (some shellCommand) (localsAt 3)
      = some (fillDentry smallConfig.fs 0 (localsAt 3).dentry) := rfl
  refine ⟨_, k', entryPoint, hnamed, hrun, ?_⟩
  refine (loadedRight_iff smallBooted_reachable hnamed hrun).2 ⟨by decide, fun b _ => ?_⟩
  change (0 : UInt32) < 2
  decide

/-! ## Who decides -/

/-- What `execute` decides: to refuse the command, or to run the file, which then starts at its entry
    point unless the copy of it runs into a page that is not mapped. -/
inductive Decision
  | refused
  | entered (entryPoint : UInt32)
  | faulted

def ExecResult.decision : ExecResult → Decision
  | .failed _ _ => .refused
  | .started _ entryPoint => .entered entryPoint
  | .fault _ => .faulted

/-- The decision is the file's: what the header buffer held before makes no difference, and only a file of
    type 2 with a complete header and the magic number is run. -/
structure DecidedByFile (cfg : Config) (k : Kernel) (comm : Option Bytes) (loc : Locals) : Prop where
  same : ∀ buf buf', (execute cfg k comm { loc with buf := buf }).decision
    = (execute cfg k comm { loc with buf := buf' }).decision
  program : ∀ buf, (execute cfg k comm { loc with buf := buf }).decision ≠ .refused →
    ∃ d, namedEntry cfg comm loc = some d ∧ d.fileType = 2 ∧ 28 ≤ fileSize cfg.fs d.inodeIdx ∧
      ∀ j < 4, fileByte? cfg.fs d.inodeIdx j = magicNumbers[j]?

/-- The command gets to the check with a header that is not the file's own: the file is shorter than the
    header, or its first block is the one after the last. What is read agrees with the magic number as
    far as it goes. -/
structure ForeignHeader (cfg : Config) (k : Kernel) (comm : Option Bytes) (loc : Locals) (d : Dentry) :
    Prop where
  checked : Checked cfg k comm loc d
  foreign : fileSize cfg.fs d.inodeIdx < 28 ∨
    (cfg.fs.inodes d.inodeIdx.toNat).datablockIdx 0 = cfg.fs.numDataBlocks
  magic : ∀ j < 4, j < fileSize cfg.fs d.inodeIdx →
    magicNumbers[j]? = some (fileByte cfg.fs d.inodeIdx j)

/-- Does the copy of the file run into a page that is not mapped? -/
def loadFaults (cfg : Config) (k : Kernel) (inode : UInt32) : Bool :=
  match freeSlot k with
  | some i => (storeVirt (kernelAddr cfg.lay (addProcess k.paging (UInt32.ofNat i.val))) programStart
      (loadedBytes cfg inode) k.mem).2
  | none => false

theorem loadFaults_of_fits (hlen : (loadedBytes cfg inode).length ≤ programRoom) :
    loadFaults cfg k inode = false := by
  unfold loadFaults
  cases freeSlot k with
  | none => rfl
  | some i => exact load_noFault (addProcess_entry i) hlen

theorem hasMagic_iff {buf : Bytes} :
    hasMagic buf = true ↔ ∀ j < 4, magicNumbers[j]? = some (buf j) := by
  unfold hasMagic
  rw [beq_iff_eq]
  constructor
  · intro h j hj
    rw [← h]
    simp [hj]
  · intro h
    apply List.ext_getElem?
    intro j
    by_cases hj : j < 4
    · rw [h j hj]
      simp [hj]
    · have hpast : magicNumbers.length ≤ j := Nat.not_lt.1 hj
      rw [List.getElem?_eq_none hpast, List.getElem?_eq_none (by simpa using Nat.not_lt.1 hj)]

/-- The header buffer after a read: the file's bytes, and after its end what was there before. -/
theorem headerBuf_apply (h : ¬ ReadFails cfg.fs inode 0 bytesToRead) (loc : Locals) {j : Nat}
    (hj : j < 28) : headerBuf cfg loc inode j =
      if j < fileSize cfg.fs inode then fileByte cfg.fs inode j else loc.buf j := by
  have hmin : j < min bytesToRead.toNat (fileSize cfg.fs inode) ↔ j < fileSize cfg.fs inode := by
    rw [Nat.lt_min]
    exact and_iff_right hj
  unfold headerBuf
  rw [readData_header h, store_fileSlice, if_congr hmin rfl rfl, Nat.zero_add]

theorem loadProgram_decision (hends : k.ProgramEnds) {i : Slot} {file : ProgramFile}
    (hd : readDentryByName cfg.fs file.fileName loc.dentry = some d)
    (hread : ¬ ReadFails cfg.fs d.inodeIdx 0 bytesToRead) :
    (loadProgram cfg k i file loc).decision =
      if hasMagic file.buf then
        if (storeVirt (kernelAddr cfg.lay (addProcess k.paging (UInt32.ofNat i.val))) programStart
          (loadedBytes cfg d.inodeIdx) k.mem).2 then .faulted
        else .entered (entryPointOf file.buf)
      else .refused := by
  unfold loadProgram
  by_cases hmagic : hasMagic file.buf = true
  · simp only [hmagic, if_true, hd, ← loadedBytes.eq_1]
    split_ifs with hfault hret
    · rfl
    · have hok := mt (readData_fails_iff ..).1 hread
      exact absurd hret (load_ret_ne hends hok (Bool.eq_false_iff.2 hfault))
    · rfl
  · simp only [hmagic, if_false, Bool.false_eq_true]
    rfl

/-- The decision about a command that gets to the check. -/
theorem Checked.decision (hends : k.ProgramEnds) (h : Checked cfg k comm loc d) :
    (execute cfg k comm loc).decision =
      if hasMagic (headerBuf cfg loc d.inodeIdx) then
        if loadFaults cfg k d.inodeIdx then .faulted
        else .entered (entryPointOf (headerBuf cfg loc d.inodeIdx))
      else .refused := by
  obtain ⟨c, fileName, i, hi, hentry, -, hrun⟩ := h.execute_eq
  obtain ⟨hpaging, hmem⟩ := setUp_memory k c loc i
  have hends' : (setUp (withArgs k c loc) i).ProgramEnds := by
    unfold ProgramEnds
    rw [hpaging]
    exact hends
  unfold loadFaults
  rw [hrun, loadProgram_decision hends' hentry h.readable, hpaging, hmem, hi]

/-- A command that is not refused gets to the check, with the magic number in its header buffer. -/
theorem checked_of_decision (hends : k.ProgramEnds)
    (h : (execute cfg k comm loc).decision ≠ .refused) :
    ∃ d, Checked cfg k comm loc d ∧ hasMagic (headerBuf cfg loc d.inodeIdx) = true := by
  by_cases hnone : ∀ d, ¬ Checked cfg k comm loc d
  · obtain ⟨e, k1, hfail⟩ := execute_failed_of_not_checked hnone
    rw [hfail] at h
    exact absurd rfl h
  · push Not at hnone
    obtain ⟨d, hd⟩ := hnone
    refine ⟨d, hd, ?_⟩
    by_contra hmagic
    rw [hd.decision hends, if_neg hmagic] at h
    exact h rfl

theorem Checked.withBuf (h : Checked cfg k comm loc d) (buf : Bytes) :
    Checked cfg k comm { loc with buf := buf } d := ⟨h.named, h.program, h.readable, h.slot⟩

theorem entryPointOf_congr {buf buf' : Bytes} (h : ∀ j < 28, buf j = buf' j) :
    entryPointOf buf = entryPointOf buf' := by
  apply UInt32.toNat_inj.1
  rw [entryPointOf_toNat, entryPointOf_toNat]
  congr 1
  apply List.map_congr_left
  intro j hj
  exact h _ (by have := List.mem_range.1 hj; omega)

theorem hasMagic_congr {buf buf' : Bytes} (h : ∀ j < 28, buf j = buf' j) :
    hasMagic buf = hasMagic buf' := by
  rw [Bool.eq_iff_iff, hasMagic_iff, hasMagic_iff]
  refine forall₂_congr fun j hj => ?_
  rw [h j (by omega)]

/-- With a complete header the decision does not depend on what the buffer held before. -/
theorem decision_congr (hends : k.ProgramEnds) (hd : Checked cfg k comm loc d)
    (hsize : 28 ≤ fileSize cfg.fs d.inodeIdx) (buf : Bytes) :
    (execute cfg k comm { loc with buf := buf }).decision = (execute cfg k comm loc).decision := by
  have hagree : ∀ j < 28, headerBuf cfg { loc with buf := buf } d.inodeIdx j
      = headerBuf cfg loc d.inodeIdx j := by
    intro j hj
    rw [headerBuf_apply hd.readable _ hj, headerBuf_apply hd.readable _ hj, if_pos (by omega),
      if_pos (by omega)]
  rw [(hd.withBuf buf).decision hends, hd.decision hends, hasMagic_congr hagree,
    entryPointOf_congr hagree]

/-- A stack that holds the magic number completes a foreign header. -/
theorem ForeignHeader.accepted (hends : k.ProgramEnds) (h : ForeignHeader cfg k comm loc d) :
    (execute cfg k comm { loc with buf := cstr magicNumbers }).decision ≠ .refused := by
  have hchecked := h.checked.withBuf (cstr magicNumbers)
  have hbuf : hasMagic (headerBuf cfg { loc with buf := cstr magicNumbers } d.inodeIdx) = true := by
    refine hasMagic_iff.2 fun j hj => ?_
    rw [headerBuf_apply hchecked.readable _ (by omega)]
    split_ifs with hlt
    · exact h.magic j hj hlt
    · interval_cases j <;> rfl
  rw [hchecked.decision hends, if_pos hbuf]
  split_ifs <;> exact Decision.noConfusion

/-- A command that is not refused, and has no foreign header, has its own. -/
theorem own_header (hends : k.ProgramEnds) (hown : ∀ d, ¬ ForeignHeader cfg k comm loc d) {buf : Bytes}
    (hdec : (execute cfg k comm { loc with buf := buf }).decision ≠ .refused) :
    ∃ d, Checked cfg k comm loc d ∧ 28 ≤ fileSize cfg.fs d.inodeIdx ∧
      ∀ j < 4, fileByte? cfg.fs d.inodeIdx j = magicNumbers[j]? := by
  obtain ⟨d, hd, hmagic⟩ := checked_of_decision hends hdec
  have hd' : Checked cfg k comm loc d := hd.withBuf loc.buf
  have hbytes : ∀ j < 4, j < fileSize cfg.fs d.inodeIdx →
      magicNumbers[j]? = some (fileByte cfg.fs d.inodeIdx j) := by
    intro j hj hlt
    rw [hasMagic_iff.1 hmagic j hj, headerBuf_apply hd.readable _ (by omega), if_pos hlt]
  have hnot := fun hforeign => hown d ⟨hd', hforeign, hbytes⟩
  have hsize : 28 ≤ fileSize cfg.fs d.inodeIdx := Nat.not_lt.1 fun hlt => hnot (Or.inl hlt)
  have hfirst : (cfg.fs.inodes d.inodeIdx.toNat).datablockIdx 0 < cfg.fs.numDataBlocks := by
    rw [UInt32.lt_iff_le_and_ne]
    exact ⟨firstBlock_le hd.readable (by omega), fun heq => hnot (Or.inr heq)⟩
  refine ⟨d, hd', hsize, fun j hj => ?_⟩
  rw [hbytes j hj (by omega), fileByte?_eq_some]
  refine ⟨⟨by omega, ?_⟩, rfl⟩
  rw [Nat.div_eq_of_lt (lt_trans hj (by decide))]
  exact hfirst

/-- For every image, reachable state and command: the decision is the file's, exactly if the command does
    not get to the check with a foreign header. -/
theorem decidedByFile_iff (hk : Reachable cfg k) (comm : Option Bytes) (loc : Locals) :
    DecidedByFile cfg k comm loc ↔ ∀ d, ¬ ForeignHeader cfg k comm loc d := by
  have hends := hk.programEnds
  constructor
  · rintro ⟨-, hprogram⟩ d hd
    obtain ⟨d', hnamed, -, hsize, hfile⟩ := hprogram _ (hd.accepted hends)
    obtain rfl : d' = d := Option.some.inj (hnamed.symm.trans hd.checked.named)
    rcases hd.foreign with hshort | hlast
    · omega
    · have hfirst := (fileByte?_eq_some.1 (hfile 0 (by decide))).1.2
      rw [Nat.zero_div, hlast] at hfirst
      exact UInt32.lt_irrefl _ hfirst
  · intro hown
    have hsame : ∀ buf buf', (execute cfg k comm { loc with buf := buf }).decision ≠ .refused →
        (execute cfg k comm { loc with buf := buf }).decision
          = (execute cfg k comm { loc with buf := buf' }).decision := by
      intro buf buf' hdec
      obtain ⟨d, hd, hsize, -⟩ := own_header hends hown hdec
      rw [decision_congr hends hd hsize buf, decision_congr hends hd hsize buf']
    refine ⟨fun buf buf' => ?_, fun buf hdec => ?_⟩
    · by_cases hdec : (execute cfg k comm { loc with buf := buf }).decision = .refused
      · by_cases hdec' : (execute cfg k comm { loc with buf := buf' }).decision = .refused
        · rw [hdec, hdec']
        · exact (hsame buf' buf hdec').symm
      · exact hsame buf buf' hdec
    · obtain ⟨d, hd, hsize, hbytes⟩ := own_header hends hown hdec
      exact ⟨d, hd.named, hd.program, hsize, hbytes⟩

/-- The shell of the small machine again. -/
theorem decidedByFile_shell : DecidedByFile smallConfig smallBooted (some shellCommand) (localsAt 3) := by
  refine (decidedByFile_iff smallBooted_reachable _ _).2 fun d hforeign => ?_
  have hnamed : namedEntry smallConfig (some shellCommand) (localsAt 3)
      = some (fillDentry smallConfig.fs 0 (localsAt 3).dentry) := rfl
  obtain rfl := Option.some.inj (hnamed.symm.trans hforeign.checked.named)
  rcases hforeign.foreign with hsize | hblock
  · exact absurd hsize (by decide)
  · exact absurd hblock (by decide)

/-! ## A program without a header -/

/-- The small image with one more program in it: the magic number and nothing else. -/
def tinyImage : Image where
  bootBlock :=
    { numDirEntries := 5
      N := 3
      D := 3
      dirEntries := fun i =>
        if i = 4 then ⟨cstr (ascii "tiny"), 2, 2⟩ else smallImage.bootBlock.dirEntries i }
  inodes := fun i => if i = 2 then ⟨4, fun _ => 2⟩ else smallImage.inodes i
  dataBlocks := fun b => if b = 2 then cstr magicNumbers else smallImage.dataBlocks b

def tinyConfig : Config := { smallConfig with fs := filesystemInit tinyImage fun _ => 0 }

def tinyCommand : Bytes := cstr (ascii "tiny")

theorem tinyConfig_hasShell : HasShell tinyConfig.fs := by
  refine ⟨0, fun d => ⟨_, rfl, rfl, rfl⟩, ⟨by decide, by decide, fun b _ => ?_⟩, ?_, by decide⟩
  · change (0 : UInt32) < 3
    decide
  · rw [fileContents_eq]
    rfl

theorem tinyConfig_booted : ∃ k, Reachable tinyConfig k ∧ freeSlot k = some 3 := by
  obtain ⟨k, entryPoint, hrun, hst⟩ := @execute_shell tinyConfig (bootState tinyConfig smallMachine)
    (localsAt 0) tinyConfig_hasShell _ (boot_freeSlot tinyConfig smallMachine)
  refine ⟨k, ⟨smallMachine, localsAt 0, [],
    Runs.run_cons_eq_some.2 ⟨k, next_execute hrun, rfl⟩⟩, ?_⟩
  rw [freeSlot_eq_some, hst.inUse]
  decide

theorem tinyConfig_tiny (d : Dentry) :
    readDentryByName tinyConfig.fs tinyCommand d = some (fillDentry tinyConfig.fs 4 d) := by
  have hfind : (Fin.find? fun i : Fin maxEntries => (tinyConfig.fs.entries i).name == ascii "tiny")
      = some ⟨4, by decide⟩ := by decide +kernel
  have hcount : tinyConfig.fs.CountsNames := filesystemInit_countsNames _ _
  rw [tinyCommand, readDentryByName_cstr hcount (by simp [ascii]) (by decide) (by decide), hfind]
  rfl

theorem tinyCommand_named (loc : Locals) :
    namedEntry tinyConfig (some tinyCommand) loc = some (fillDentry tinyConfig.fs 4 loc.dentry) := by
  obtain ⟨fileName, hcopy, hname⟩ := copyFileName_word (s := ascii "tiny") (by simp [ascii]) (by decide)
    (fun i _ => rfl : ∀ i < (ascii "tiny").length, tinyCommand i = cstr (ascii "tiny") i)
    (Or.inr rfl) loc
  refine namedEntry_eq_some.2 ⟨tinyCommand, fileName, rfl, hcopy, ?_⟩
  rw [readDentryByName_congr tinyConfig.fs hname rfl]
  exact tinyConfig_tiny _

/-- In any state with a free slot the command gets to the check. -/
theorem tinyCommand_checked {i : Slot} (hi : freeSlot k = some i) (loc : Locals) :
    Checked tinyConfig k (some tinyCommand) loc (fillDentry tinyConfig.fs 4 loc.dentry) where
  named := tinyCommand_named loc
  program := rfl
  readable := by
    have hinode : (fillDentry tinyConfig.fs 4 loc.dentry).inodeIdx = 2 := rfl
    rw [hinode, ← readData_fails_iff]
    decide
  slot := ⟨i, hi⟩

/-- It is run whatever the stack held, at an entry point the stack decides. -/
theorem tinyCommand_decision (hk : Reachable tinyConfig k) {i : Slot} (hi : freeSlot k = some i)
    (loc : Locals) : (execute tinyConfig k (some tinyCommand) loc).decision
      = .entered (entryPointOf (headerBuf tinyConfig loc 2)) := by
  have hmagic : hasMagic (headerBuf tinyConfig loc 2) = true := hasMagic_store (by decide)
  have hlen : (loadedBytes tinyConfig 2).length = 4 := by decide
  have hfault : loadFaults tinyConfig k 2 = false :=
    loadFaults_of_fits (by rw [hlen]; unfold programRoom; omega)
  have hdec := (tinyCommand_checked hi loc).decision hk.programEnds
  have hinode : (fillDentry tinyConfig.fs 4 loc.dentry).inodeIdx = 2 := rfl
  rw [hdec, hinode, if_pos hmagic, hfault, if_neg (by decide)]

/-- The entry point is not the one of the header: the file has none. -/
theorem not_loadedRight :
    ¬ ∀ (cfg : Config) (k : Kernel), Reachable cfg k → ∀ comm loc d k' entryPoint,
      namedEntry cfg comm loc = some d → execute cfg k comm loc = .started k' entryPoint →
        LoadedRight cfg k k' d.inodeIdx entryPoint := by
  intro hall
  obtain ⟨k, hk, hi⟩ := tinyConfig_booted
  have hdec := tinyCommand_decision hk hi (localsAt 3)
  cases hrun : execute tinyConfig k (some tinyCommand) (localsAt 3) with
  | failed e k' =>
      rw [hrun] at hdec
      cases hdec
  | fault k' =>
      rw [hrun] at hdec
      cases hdec
  | started k' entryPoint =>
      have hright := hall tinyConfig k hk _ _ _ k' entryPoint (tinyCommand_named (localsAt 3)) hrun
      obtain ⟨bytes, hlen, hbytes, -⟩ := hright.entry
      have hlast : fileByte? tinyConfig.fs 2 27 = none := by decide
      have hnone : bytes[3]? = none := (hbytes 3 (by decide)).trans hlast
      rw [List.getElem?_eq_none_iff] at hnone
      omega

/-- Two contents of the stack, two entry points. -/
theorem not_decidedByFile :
    ¬ ∀ (cfg : Config) (k : Kernel), Reachable cfg k → ∀ comm loc, DecidedByFile cfg k comm loc := by
  intro hall
  obtain ⟨k, hk, hi⟩ := tinyConfig_booted
  have hsame := (hall tinyConfig k hk (some tinyCommand) (localsAt 3)).same (fun _ => 0) (fun _ => 1)
  rw [tinyCommand_decision hk hi, tinyCommand_decision hk hi] at hsame
  have hentry := Decision.entered.inj hsame
  exact absurd hentry (by decide)

end BaseOs
