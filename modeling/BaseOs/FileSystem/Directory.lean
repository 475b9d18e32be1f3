import BaseOs.FileSystem.Lookup
import BaseOs.Process.Execute
import BaseOs.Syscall

set_option autoImplicit false

/-! # Three views of the directory

The directory is seen by index (`read_dentry_by_index`), by enumeration (`dir_read`) and by name
(`read_dentry_by_name`). Only the enumeration stops at the number of entries: the index is compared
with the size of the table, and the search by name goes through all 63 slots. `directoryViews_iff`
says for which index and which name the three views agree. -/

namespace BaseOs

open Kernel

/-! ## Directories -/

/-- The names of the entries in use. -/
def BootBlock.names (bb : BootBlock) : List (List UInt8) :=
  (List.range bb.numDirEntries.toNat).map fun j => (bb.dirEntries j).name

/-- A boot block whose entries in use have proper names. The slots after them hold anything. -/
structure WellFormedDirectory (bb : BootBlock) : Prop where
  count_le : bb.numDirEntries.toNat ≤ maxEntries
  nonempty : ∀ j < bb.numDirEntries.toNat, (bb.dirEntries j).name ≠ []
  spaceFree : ∀ j < bb.numDirEntries.toNat, 32 ∉ (bb.dirEntries j).name
  distinct : bb.names.Nodup

/-- A name one can look for: 1 to 32 characters, no space. -/
structure IsName (s : List UInt8) : Prop where
  nonempty : s ≠ []
  length_le : s.length ≤ maxNameCharacters
  chars : ∀ c ∈ s, c ≠ 32 ∧ c ≠ 0

variable {cfg : Config} {img : Image} {table : Nat → Nat} {s : List UInt8}

theorem mem_names {bb : BootBlock} :
    s ∈ bb.names ↔ ∃ j < bb.numDirEntries.toNat, (bb.dirEntries j).name = s := by
  simp [BootBlock.names]

/-! ## By index -/

theorem readDentryByIndex_isSome (fs : FileSystem) (i : UInt32) (d : Dentry) :
    (readDentryByIndex fs i d).isSome ↔ i.toNat ≤ maxEntries := by
  unfold readDentryByIndex
  split_ifs with h
  · simp only [Option.isSome_none, Bool.false_eq_true, false_iff]
    omega
  · simp only [Option.isSome_some, true_iff]
    omega

/-! ## By name -/

/-- The search finds a name exactly when one of the 63 slots holds it. -/
theorem readDentryByName_isSome {fs : FileSystem} (hcount : fs.CountsNames) (hs : IsName s)
    (d : Dentry) :
    (readDentryByName fs (cstr s) d).isSome ↔ ∃ j < maxEntries, (fs.entries j).name = s := by
  rw [readDentryByName_cstr hcount hs.chars hs.length_le hs.nonempty, Option.isSome_map,
    Fin.isSome_find?_iff]
  constructor
  · rintro ⟨i, hi⟩
    exact ⟨i.val, i.isLt, beq_iff_eq.1 hi⟩
  · rintro ⟨j, hj, hname⟩
    exact ⟨⟨j, hj⟩, beq_iff_eq.2 hname⟩

/-- The search stops at the first slot with the name: for a name in use, that is its own slot. -/
theorem readDentryByName_of_entry {bb : BootBlock} {fs : FileSystem} (hcount : fs.CountsNames)
    (hwf : WellFormedDirectory bb) (hentries : fs.entries = bb.dirEntries) (hs : IsName s) {j : Nat}
    (hj : j < bb.numDirEntries.toNat) (hname : (bb.dirEntries j).name = s) (d : Dentry) :
    readDentryByName fs (cstr s) d = some (fillDentry fs j d) := by
  have hj63 : j < maxEntries := Nat.lt_of_lt_of_le hj hwf.count_le
  have hfind : (Fin.find? fun i : Fin maxEntries => (fs.entries i).name == s)
      = some ⟨j, hj63⟩ := by
    rw [Fin.find?_eq_some_iff, hentries]
    refine ⟨by simpa using hname, fun i hi => ?_⟩
    -- an earlier slot with the same name would be an entry in use with that name
    have hij : i.val < j := hi
    by_contra hmatch
    have hsame : (bb.dirEntries i.val).name = (bb.dirEntries j).name := by
      rw [hname]
      simpa using hmatch
    have hnodup := List.nodup_map_iff_inj_on List.nodup_range |>.1 hwf.distinct
    have := hnodup i.val (List.mem_range.2 (by omega)) j (List.mem_range.2 hj) hsame
    omega
  rw [readDentryByName_cstr hcount hs.chars hs.length_le hs.nonempty, hfind]
  rfl

/-! ## By enumeration -/

/-- Reading a directory descriptor again and again: what each call returns and stores. -/
def dirReads (cfg : Config) (p : Slot) (fd : FdIndex) : Kernel → List (Bytes × Int) →
    List (Int32 × List UInt8)
  | _, [] => []
  | k, (buf, nbytes) :: reads =>
    let r := dirRead cfg k p fd buf nbytes
    (r.ret, firstBytes r.buf r.ret.toInt.toNat) :: dirReads cfg p fd r.kernel reads

/-- What the calls are to return from entry `j` on: the names one after the other, then nothing. -/
def listing (bb : BootBlock) (j m : Nat) : List (Int32 × List UInt8) :=
  (List.range' j m).map fun i =>
    if i < bb.numDirEntries.toNat then
      (toRet (bb.dirEntries i).name.length, (bb.dirEntries i).name)
    else (0, [])

theorem listing_succ (bb : BootBlock) (j m : Nat) :
    listing bb j (m + 1) =
      (if j < bb.numDirEntries.toNat then
        (toRet (bb.dirEntries j).name.length, (bb.dirEntries j).name)
      else (0, [])) :: listing bb (j + 1) m := by
  simp only [listing, List.range'_succ, List.map_cons]

/-- After the last entry there is nothing, wherever one starts. -/
theorem listing_end {bb : BootBlock} {j : Nat} (hj : bb.numDirEntries.toNat ≤ j) (m : Nat) :
    listing bb j m = List.replicate m (0, []) := by
  induction m generalizing j with
  | zero => rfl
  | succ m ih => rw [listing_succ, if_neg (by omega), ih (by omega), List.replicate_succ]

theorem toRet_toNat {n : Nat} (h : n < 2 ^ 31) : (toRet n).toInt.toNat = n := by
  unfold toRet
  rw [UInt32.toInt32_ofNat', Int32.toInt_ofNat_of_lt h]
  rfl

theorem name_length (d : Dentry) : d.name.length = nameLength d.fileName := length_firstBytes _ _

theorem nameLength_le (name : Bytes) : nameLength name ≤ maxNameCharacters := (nameLength_spec name).1

/-- A scan of a name that is also bounded by the size of a buffer. -/
theorem scan_name (name : Bytes) (n : Nat) :
    Scan.scan (fun i => name i != 0) 0 (min n maxNameCharacters) = min n (nameLength name) := by
  obtain ⟨-, hle, hpass, hstop⟩ := Scan.scan_spec (fun i => name i != 0) 0 maxNameCharacters
  rw [← nameLength, Nat.zero_add] at hle hstop
  rw [← nameLength] at hpass
  refine Scan.scan_eq_of _ (Nat.zero_le _) (by omega) (fun j _ hj => hpass j (Nat.zero_le j) (by omega))
    (fun hlt => ?_)
  rw [Nat.min_eq_right (show nameLength name ≤ n by omega)]
  exact hstop (by omega)

/-- One call at an entry in use: as much of its name as fits, and the position moves on. -/
theorem dirRead_eq {k : Kernel} {p : Slot} {fd : FdIndex} (buf : Bytes) (nbytes : Int)
    (hpos : ((k.pcb p).fdTable fd).filePosition < cfg.fs.numEntries) :
    dirRead cfg k p fd buf nbytes =
      ⟨k.setFdTable p (addOffset (k.pcb p).fdTable fd.val 1),
        toRet (min nbytes.toNat
          (cfg.fs.entries ((k.pcb p).fdTable fd).filePosition.toNat).name.length),
        fun m => if m < min nbytes.toNat
            (cfg.fs.entries ((k.pcb p).fdTable fd).filePosition.toNat).name.length then
          (cfg.fs.entries ((k.pcb p).fdTable fd).filePosition.toNat).fileName m else buf m⟩ := by
  unfold dirRead
  simp only [if_neg (UInt32.not_le.2 hpos), scan_name, name_length]

/-- One call, at an entry in use and with room for a whole name. -/
theorem dirRead_entry {k : Kernel} {p : Slot} {fd : FdIndex} {j : Nat} {nbytes : Int} (buf : Bytes)
    (hpos : ((k.pcb p).fdTable fd).filePosition = UInt32.ofNat j) (hj : j < cfg.fs.numEntries.toNat)
    (hn : 32 ≤ nbytes) :
    (dirRead cfg k p fd buf nbytes).ret = toRet (cfg.fs.entries j).name.length ∧
      firstBytes (dirRead cfg k p fd buf nbytes).buf (cfg.fs.entries j).name.length
        = (cfg.fs.entries j).name ∧
      (((dirRead cfg k p fd buf nbytes).kernel.pcb p).fdTable fd).filePosition
        = UInt32.ofNat (j + 1) := by
  have hj32 : j < 2 ^ 32 := lt_trans hj cfg.fs.numEntries.toNat_lt
  have hjnat : (UInt32.ofNat j).toNat = j := by
    simp only [UInt32.toNat_ofNat']
    omega
  have hmin : min nbytes.toNat (cfg.fs.entries j).name.length = (cfg.fs.entries j).name.length := by
    have hlen := nameLength_le (cfg.fs.entries j).fileName
    rw [name_length]
    unfold maxNameCharacters at hlen
    omega
  rw [dirRead_eq buf nbytes (by rw [hpos, UInt32.lt_iff_toNat_lt, hjnat]; exact hj)]
  simp only [hpos, hjnat, hmin]
  refine ⟨trivial, ?_, ?_⟩
  · rw [name_length]
    unfold Dentry.name
    rw [firstBytes_eq_iff]
    exact ⟨rfl, fun i hi => if_pos hi⟩
  · simp only [setFdTable, setPcb, Function.update_self, addOffset, fdIndex?_val, hpos]
    rw [UInt32.ofNat_add]
    rfl

/-- One call after the last entry. -/
theorem dirRead_end {k : Kernel} {p : Slot} {fd : FdIndex} (buf : Bytes) (nbytes : Int)
    (hpos : cfg.fs.numEntries ≤ ((k.pcb p).fdTable fd).filePosition) :
    dirRead cfg k p fd buf nbytes = ⟨k, 0, buf⟩ := by
  unfold dirRead
  simp only [ge_iff_le, hpos, if_true]

/-- The enumeration lists the names of the entries in use, whatever the other slots hold. -/
theorem dirReads_eq {bb : BootBlock} (hcount : cfg.fs.numEntries = bb.numDirEntries)
    (hentries : cfg.fs.entries = bb.dirEntries) {p : Slot} {fd : FdIndex}
    {reads : List (Bytes × Int)} (hreads : ∀ r ∈ reads, 32 ≤ r.2) {k : Kernel} {j : Nat}
    (hj : j ≤ bb.numDirEntries.toNat)
    (hpos : ((k.pcb p).fdTable fd).filePosition = UInt32.ofNat j) :
    dirReads cfg p fd k reads = listing bb j reads.length := by
  induction reads generalizing k j with
  | nil => rfl
  | cons r reads ih =>
      obtain ⟨buf, nbytes⟩ := r
      have hrest : ∀ r ∈ reads, 32 ≤ r.2 := fun r hr => hreads r (List.mem_cons_of_mem _ hr)
      rw [dirReads, List.length_cons, listing_succ]
      by_cases hlt : j < bb.numDirEntries.toNat
      · obtain ⟨hret, htext, hnext⟩ := dirRead_entry buf hpos (by rw [hcount]; exact hlt)
          (hreads (buf, nbytes) List.mem_cons_self)
        have hsmall : (cfg.fs.entries j).name.length < 2 ^ 31 := by
          have := nameLength_le (cfg.fs.entries j).fileName
          rw [name_length]
          unfold maxNameCharacters at this
          omega
        rw [if_pos hlt, ih hrest hlt hnext, ← hentries]
        simp only [hret, toRet_toNat hsmall, htext]
      · have hend : j = bb.numDirEntries.toNat := by omega
        have hpos' : cfg.fs.numEntries ≤ ((k.pcb p).fdTable fd).filePosition := by
          rw [hpos, hcount, hend, UInt32.ofNat_toNat]
          exact UInt32.le_refl _
        rw [if_neg hlt, dirRead_end buf nbytes hpos']
        simp only
        -- the position stays at the end
        rw [ih hrest hj hpos, listing_end (by omega), listing_end (by omega)]
        rfl

/-! ## Agreement -/

/-- The three views agree at the index `i` and the name `s`: a lookup by index works exactly for the
    entries in use, a fresh directory descriptor lists their names, and a lookup by name works exactly
    for those names and finds what the lookup by index finds. -/
structure ViewsAgree (cfg : Config) (bb : BootBlock) (i : UInt32) (s : List UInt8) : Prop where
  byIndex : ∀ d, (readDentryByIndex cfg.fs i d).isSome ↔ i.toNat < bb.numDirEntries.toNat
  byReading : ∀ (k : Kernel) (p : Slot) (fd : FdIndex) (reads : List (Bytes × Int)),
    ((k.pcb p).fdTable fd).filePosition = 0 → (∀ r ∈ reads, 32 ≤ r.2) →
      dirReads cfg p fd k reads = listing bb 0 reads.length
  byName : ∀ d, (readDentryByName cfg.fs (cstr s) d).isSome ↔ s ∈ bb.names
  sameEntry : ∀ d d' (j : UInt32), j.toNat < bb.numDirEntries.toNat →
    (bb.dirEntries j.toNat).name = s →
    ∃ a b, readDentryByName cfg.fs (cstr s) d = some a ∧ readDentryByIndex cfg.fs j d' = some b ∧
      a.fileType = b.fileType ∧ a.inodeIdx = b.inodeIdx

/-- The views agree exactly for an index below the number of entries or above 63, and a name that no
    leftover slot holds unless an entry in use holds it too. -/
theorem directoryViews_iff (hfs : cfg.fs = filesystemInit img table)
    (hwf : WellFormedDirectory img.bootBlock) (i : UInt32) (hs : IsName s) :
    ViewsAgree cfg img.bootBlock i s ↔
      (i.toNat < img.bootBlock.numDirEntries.toNat ∨ maxEntries < i.toNat) ∧
      ∀ j, img.bootBlock.numDirEntries.toNat ≤ j → j < maxEntries →
        (img.bootBlock.dirEntries j).name = s → s ∈ img.bootBlock.names := by
  have hcounts : cfg.fs.CountsNames := by
    rw [hfs]
    exact filesystemInit_countsNames img table
  have hentries : cfg.fs.entries = img.bootBlock.dirEntries := by rw [hfs]; rfl
  have hnum : cfg.fs.numEntries = img.bootBlock.numDirEntries := by rw [hfs]; rfl
  have hle := hwf.count_le
  constructor
  · intro hviews
    constructor
    · -- an index from the count on is accepted, up to 63
      have hindex := hviews.byIndex ⟨fun _ => 0, 0, 0⟩
      rw [readDentryByIndex_isSome] at hindex
      omega
    · -- the search goes through the unused slots as well
      intro j _ hj hname
      rw [← hviews.byName ⟨fun _ => 0, 0, 0⟩, readDentryByName_isSome hcounts hs, hentries]
      exact ⟨j, hj, hname⟩
  · rintro ⟨hindex, hleft⟩
    refine ⟨fun d => ?_, fun k p fd reads hpos hreads => ?_, fun d => ?_, fun d d' j hj hname => ?_⟩
    · rw [readDentryByIndex_isSome]
      omega
    · exact dirReads_eq hnum hentries hreads (Nat.zero_le _) hpos
    · rw [readDentryByName_isSome hcounts hs, hentries]
      constructor
      · rintro ⟨j, hj, hname⟩
        rcases Nat.lt_or_ge j img.bootBlock.numDirEntries.toNat with hlt | hge
        · exact mem_names.2 ⟨j, hlt, hname⟩
        · exact hleft j hge hj hname
      · intro hmem
        obtain ⟨j, hj, hname⟩ := mem_names.1 hmem
        exact ⟨j, by omega, hname⟩
    · refine ⟨fillDentry cfg.fs j.toNat d, fillDentry cfg.fs j.toNat d', ?_, ?_, rfl, rfl⟩
      · exact readDentryByName_of_entry hcounts hwf hentries hs hj hname d
      · unfold readDentryByIndex
        rw [if_neg (by omega)]

theorem smallImage_wellFormed : WellFormedDirectory smallImage.bootBlock where
  count_le := by decide
  nonempty := by decide +kernel
  spaceFree := by decide +kernel
  distinct := by decide +kernel

theorem isName_shell : IsName (ascii "shell") := ⟨by decide, by decide, by simp [ascii]⟩

/-- The shell, and the first entry. -/
theorem directoryViews_shell : ViewsAgree smallConfig smallImage.bootBlock 0 (ascii "shell") := by
  refine (directoryViews_iff rfl smallImage_wellFormed 0 isName_shell).2 ⟨Or.inl (by decide), ?_⟩
  intro j _ _ _
  exact mem_names.2 ⟨0, by decide, by decide +kernel⟩

/-- The index after the last entry is accepted. -/
theorem directoryViews_past_end :
    ¬ ∀ (cfg : Config) (img : Image) (table : Nat → Nat) (i : UInt32) (s : List UInt8),
      cfg.fs = filesystemInit img table → WellFormedDirectory img.bootBlock → IsName s →
        ViewsAgree cfg img.bootBlock i s := by
  intro hall
  have hviews := hall smallConfig smallImage (fun _ => 0) 4 (ascii "shell") rfl smallImage_wellFormed
    isName_shell
  exact absurd ((hviews.byIndex ⟨fun _ => 0, 0, 0⟩).1 rfl) (by decide)

end BaseOs
