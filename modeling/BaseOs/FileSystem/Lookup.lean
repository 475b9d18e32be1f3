import BaseOs.FileSystem
import BaseOs.Lib.Terminated

set_option autoImplicit false

/-! # Looking names up

`read_dentry_by_name` compares lengths first and then bytes, so a slot matches exactly when the name
looked for, cut at a space, a NUL or 32 characters, is the slot's name. From there on names are lists
of characters and the search is the first of the 63 slots with that name: `readDentryByName_exact`. The
name handed back is copied without its NUL, so it may run on into what was there before:
`foundName_iff`. -/

namespace BaseOs

/-- The first `n` bytes behind a pointer. -/
def firstBytes (f : Bytes) (n : Nat) : List UInt8 := (List.range n).map f

/-- The name `read_dentry_by_name` looks for when given this pointer. -/
def givenName (fname : Bytes) : List UInt8 := firstBytes fname (givenNameLen fname)

/-- The name of a directory entry. -/
def Dentry.name (d : Dentry) : List UInt8 := firstBytes d.fileName (nameLength d.fileName)

/-- The cached lengths are those of the entries: what `create_char_count` establishes. -/
def FileSystem.CountsNames (fs : FileSystem) : Prop :=
  ∀ i < maxEntries, fs.characterCount i = nameLength (fs.entries i).fileName

theorem filesystemInit_countsNames (img : Image) (table : Nat → Nat) :
    (filesystemInit img table).CountsNames := by
  intro i hi
  simp only [filesystemInit, createCharCount, hi, if_true]

theorem length_firstBytes (f : Bytes) (n : Nat) : (firstBytes f n).length = n := by
  simp only [firstBytes, List.length_map, List.length_range]

theorem firstBytes_succ (f : Bytes) (n : Nat) : firstBytes f (n + 1) = firstBytes f n ++ [f n] := by
  unfold firstBytes
  rw [List.range_succ, List.map_append, List.map_singleton]

theorem take_firstBytes (f : Bytes) {m n : Nat} (h : m ≤ n) :
    (firstBytes f n).take m = firstBytes f m := by
  unfold firstBytes
  rw [← List.map_take, List.take_range, Nat.min_eq_left h]

theorem firstBytes_eq_iff {f g : Bytes} {n m : Nat} :
    firstBytes f n = firstBytes g m ↔ n = m ∧ ∀ i < n, f i = g i := by
  constructor
  · intro h
    have hnm : n = m := by simpa only [length_firstBytes] using congrArg List.length h
    subst hnm
    refine ⟨rfl, fun i hi => ?_⟩
    exact List.map_inj_left.1 h i (List.mem_range.2 hi)
  · rintro ⟨rfl, h⟩
    exact List.map_congr_left fun i hi => h i (List.mem_range.1 hi)

/-- The length of the name looked for: where the scan stopped, and what it passed. -/
theorem givenNameLen_spec (fname : Bytes) :
    givenNameLen fname ≤ maxNameCharacters ∧
      (∀ i < givenNameLen fname, fname i ≠ 32 ∧ fname i ≠ 0) ∧
      (givenNameLen fname < maxNameCharacters →
        fname (givenNameLen fname) = 32 ∨ fname (givenNameLen fname) = 0) := by
  obtain ⟨-, hle, hpass, hstop⟩ :=
    Scan.scan_spec (fun i => fname i != 32 && fname i != 0) 0 maxNameCharacters
  rw [Nat.zero_add] at hle hstop
  refine ⟨hle, fun i hi => ?_, fun hlt => ?_⟩
  · simpa only [Bool.and_eq_true, bne_iff_ne] using hpass i (Nat.zero_le i) hi
  · have hend := hstop hlt
    simp only [Bool.and_eq_false_iff, bne_eq_false_iff_eq] at hend
    exact hend

theorem givenNameLen_eq_of {fname : Bytes} {n : Nat} (hn : n ≤ maxNameCharacters)
    (hpass : ∀ i < n, fname i ≠ 32 ∧ fname i ≠ 0)
    (hstop : n < maxNameCharacters → fname n = 32 ∨ fname n = 0) : givenNameLen fname = n := by
  refine Scan.scan_eq_of _ (Nat.zero_le _) (by rwa [Nat.zero_add]) (fun i _ hi => ?_) (fun hlt => ?_)
  · simpa only [Bool.and_eq_true, bne_iff_ne] using hpass i hi
  · simpa only [Bool.and_eq_false_iff, bne_eq_false_iff_eq] using hstop (by omega)

/-- A slot matches exactly when it holds the name. -/
theorem entryMatches_iff {fs : FileSystem} (hcount : fs.CountsNames) {fname : Bytes} {i : Nat}
    (hi : i < maxEntries) :
    entryMatches fs fname i = true ↔ (fs.entries i).name = givenName fname := by
  unfold entryMatches
  rw [Bool.and_eq_true, beq_iff_eq, beq_iff_eq, hcount i hi, eq_comm (a := (fs.entries i).name)]
  unfold givenName Dentry.name
  rw [firstBytes_eq_iff]
  refine and_congr_right fun hlen => ?_
  rw [← hlen]
  exact strncmp_eq_zero_of_ne fun j hj => ((givenNameLen_spec fname).2.1 j hj).2

/-- The search over the directory, in terms of names. -/
theorem readDentryByName_eq {fs : FileSystem} (hcount : fs.CountsNames) (fname : Bytes) (d : Dentry) :
    readDentryByName fs fname d =
      if givenName fname = [] then none
      else (Fin.find? fun i : Fin maxEntries => (fs.entries i).name == givenName fname).map
        fun i : Fin maxEntries => fillDentry fs i d := by
  have hnil : givenNameLen fname = 0 ↔ givenName fname = [] := by
    rw [← List.length_eq_zero_iff, givenName, length_firstBytes]
  have hfind : (fun i : Fin maxEntries => entryMatches fs fname i)
      = fun i : Fin maxEntries => (fs.entries i).name == givenName fname := by
    funext i
    rw [Bool.eq_iff_iff, beq_iff_eq]
    exact entryMatches_iff hcount i.isLt
  unfold readDentryByName
  simp only [hnil, hfind]
  split_ifs
  · rfl
  · cases Fin.find? fun i : Fin maxEntries => (fs.entries i).name == givenName fname <;> rfl

/-- The name a C string stands for in a lookup. -/
theorem givenName_cstr {s : List UInt8} (hchars : ∀ c ∈ s, c ≠ 32 ∧ c ≠ 0)
    (hlen : s.length ≤ maxNameCharacters) : givenName (cstr s) = s := by
  have hlen' : givenNameLen (cstr s) = s.length := by
    refine givenNameLen_eq_of hlen (fun i hi => ?_) (fun _ => Or.inr ?_)
    · have hc := hchars _ (List.getElem_mem hi)
      simpa [cstr, hi] using hc
    · simp [cstr]
  unfold givenName firstBytes
  rw [hlen']
  apply List.ext_getElem
  · simp
  · intro i h1 h2
    simp [cstr, h2]

/-- Looking up a C string finds the first slot with that name. -/
theorem readDentryByName_cstr {fs : FileSystem} (hcount : fs.CountsNames) {s : List UInt8}
    (hchars : ∀ c ∈ s, c ≠ 32 ∧ c ≠ 0) (hlen : s.length ≤ maxNameCharacters) (hne : s ≠ [])
    (d : Dentry) :
    readDentryByName fs (cstr s) d =
      (Fin.find? fun i : Fin maxEntries => (fs.entries i).name == s).map
        fun i : Fin maxEntries => fillDentry fs i d := by
  rw [readDentryByName_eq hcount, givenName_cstr hchars hlen, if_neg hne]

/-- A lookup reads its argument only up to the terminator. -/
theorem givenName_congr {f g : Bytes} {n : Nat} (hagree : ∀ i ≤ n, f i = g i) (hend : g n = 0) :
    givenName f = givenName g := by
  obtain ⟨hle, hpass, hstop⟩ := givenNameLen_spec g
  have hn : givenNameLen g ≤ n := by
    by_contra hlt
    exact (hpass n (Nat.lt_of_not_le hlt)).2 hend
  have hlen : givenNameLen f = givenNameLen g := by
    refine givenNameLen_eq_of hle (fun i hi => ?_) (fun hlt => ?_)
    · rw [hagree i (by omega)]
      exact hpass i hi
    · rw [hagree _ hn]
      exact hstop hlt
  unfold givenName
  rw [firstBytes_eq_iff]
  exact ⟨hlen, fun i hi => hagree i (by omega)⟩

/-- So two pointers to the same string find the same entry. -/
theorem readDentryByName_congr (fs : FileSystem) {f g : Bytes} {n : Nat}
    (hagree : ∀ i ≤ n, f i = g i) (hend : g n = 0) (d : Dentry) :
    readDentryByName fs f d = readDentryByName fs g d := by
  obtain ⟨hlen, hbytes⟩ := firstBytes_eq_iff.1 (givenName_congr hagree hend)
  have hmatch : (fun i : Fin maxEntries => entryMatches fs f i)
      = fun i : Fin maxEntries => entryMatches fs g i := by
    funext i
    unfold entryMatches
    rw [Bool.eq_iff_iff, Bool.and_eq_true, Bool.and_eq_true, beq_iff_eq, beq_iff_eq, beq_iff_eq,
      beq_iff_eq, hlen]
    refine and_congr_right fun hcount => ?_
    rw [← hcount, ← hlen, strncmp_eq_zero_of_ne fun j hj => ((givenNameLen_spec f).2.1 j hj).2, hlen,
      strncmp_eq_zero_of_ne fun j hj => ((givenNameLen_spec g).2.1 j hj).2, ← hlen]
    exact forall₂_congr fun j hj => by rw [hbytes j hj]
  unfold readDentryByName
  rw [hlen, hmatch]

/-! ## The lookup as a whole -/

/-- What a name string stands for: its longest prefix without space or NUL, cut to 32 characters. -/
def lookupKey (fname : Bytes) : List UInt8 :=
  (firstBytes fname maxNameCharacters).takeWhile fun c => c != 32 && c != 0

/-- The name in a directory slot: its bytes up to the first NUL, at most 32. -/
def slotName (img : Image) (i : Nat) : List UInt8 :=
  Terminated.text (img.bootBlock.dirEntries i).fileName maxNameCharacters

/-- As many bytes as a scan passes are the longest prefix it accepts. -/
theorem firstBytes_scan (f : Bytes) (p : UInt8 → Bool) (n : Nat) :
    firstBytes f (Scan.scan (fun i => p (f i)) 0 n) = (firstBytes f n).takeWhile p := by
  have hlen := Terminated.scan_eq_length p f 0 n
  rw [← List.range_eq_range', Nat.zero_add] at hlen
  change _ = ((firstBytes f n).takeWhile p).length at hlen
  have hle : ((firstBytes f n).takeWhile p).length ≤ n :=
    (List.takeWhile_prefix p).length_le.trans_eq (length_firstBytes f n)
  rw [hlen]
  rw [← take_firstBytes f hle]
  exact (List.prefix_iff_eq_take.1 (List.takeWhile_prefix p)).symm

theorem givenName_eq_lookupKey (fname : Bytes) : givenName fname = lookupKey fname :=
  firstBytes_scan fname (fun c => c != 32 && c != 0) maxNameCharacters

theorem name_eq_slotName (img : Image) (i : Nat) :
    (img.bootBlock.dirEntries i).name = slotName img i :=
  firstBytes_scan (img.bootBlock.dirEntries i).fileName (fun c => c != 0) maxNameCharacters

/-- A search by name finds the lowest slot with the name, and fills the entry from it. -/
theorem readDentryByName_slot {img : Image} {table : Nat → Nat} {fname : Bytes} {dentry d : Dentry}
    (h : readDentryByName (filesystemInit img table) fname dentry = some d) :
    ∃ i < maxEntries, slotName img i = lookupKey fname ∧ (∀ j < i, slotName img j ≠ lookupKey fname) ∧
      d = fillDentry (filesystemInit img table) i dentry := by
  have hentries : (filesystemInit img table).entries = img.bootBlock.dirEntries := rfl
  rw [readDentryByName_eq (filesystemInit_countsNames img table)] at h
  simp only [hentries, givenName_eq_lookupKey, name_eq_slotName] at h
  split_ifs at h
  obtain ⟨i, hi, rfl⟩ := Option.map_eq_some_iff.1 h
  obtain ⟨hmatch, hbefore⟩ := Fin.find?_eq_some_iff.1 hi
  refine ⟨i.val, i.isLt, beq_iff_eq.1 hmatch, fun j hj => ?_, rfl⟩
  exact beq_eq_false_iff_ne.1 (hbefore ⟨j, by omega⟩ hj)

/-- The lookup is exact: it succeeds for a key that is not empty and is the name in some slot, and then
    hands over the type and the inode of the lowest such slot. A failure is `none`, with no entry
    stored. -/
structure ExactLookup (img : Image) (fs : FileSystem) (fname : Bytes) (dentry : Dentry) : Prop where
  found : (readDentryByName fs fname dentry).isSome ↔
    lookupKey fname ≠ [] ∧ ∃ i < maxEntries, slotName img i = lookupKey fname
  entry : ∀ d, readDentryByName fs fname dentry = some d → ∃ i < maxEntries,
    slotName img i = lookupKey fname ∧ (∀ j < i, slotName img j ≠ lookupKey fname) ∧
    d.fileType = (img.bootBlock.dirEntries i).fileType ∧
    d.inodeIdx = (img.bootBlock.dirEntries i).inodeIdx
  /-- A stored name is not taken for a name that it continues or that continues it. -/
  proper : ∀ i < maxEntries,
    slotName img i <+: lookupKey fname ∨ lookupKey fname <+: slotName img i →
    slotName img i ≠ lookupKey fname → (∀ j < maxEntries, j ≠ i → slotName img j ≠ lookupKey fname) →
    readDentryByName fs fname dentry = none

/-- `read_dentry_by_name` is exact, whatever the 63 slots and the name string hold. -/
theorem readDentryByName_exact (img : Image) (table : Nat → Nat) (fname : Bytes) (dentry : Dentry) :
    ExactLookup img (filesystemInit img table) fname dentry := by
  have hsearch := readDentryByName_eq (filesystemInit_countsNames img table) fname dentry
  have hentries : (filesystemInit img table).entries = img.bootBlock.dirEntries := rfl
  simp only [hentries, givenName_eq_lookupKey, name_eq_slotName] at hsearch
  have hentry : ∀ d, readDentryByName (filesystemInit img table) fname dentry = some d →
      ∃ i < maxEntries, slotName img i = lookupKey fname ∧
        (∀ j < i, slotName img j ≠ lookupKey fname) ∧
        d.fileType = (img.bootBlock.dirEntries i).fileType ∧
        d.inodeIdx = (img.bootBlock.dirEntries i).inodeIdx := by
    intro d hd
    obtain ⟨i, hi, hname, hlowest, rfl⟩ := readDentryByName_slot hd
    exact ⟨i, hi, hname, hlowest, rfl, rfl⟩
  refine ⟨?_, hentry, fun i hi _ hne hothers => ?_⟩
  · rw [hsearch]
    split_ifs with hempty
    · simp [hempty]
    · rw [Option.isSome_map, Fin.isSome_find?_iff]
      constructor
      · rintro ⟨i, hi⟩
        exact ⟨hempty, i.val, i.isLt, beq_iff_eq.1 hi⟩
      · rintro ⟨-, i, hi, hname⟩
        exact ⟨⟨i, hi⟩, beq_iff_eq.2 hname⟩
  · rw [Option.eq_none_iff_forall_ne_some]
    intro d hd
    obtain ⟨j, hj, hname, -⟩ := hentry d hd
    by_cases hji : j = i
    · exact hne (hji ▸ hname)
    · exact hothers j hj hji hname

/-! ## The name a lookup returns

The copy takes as many characters as the entry's name has, and no NUL behind them. -/

theorem nameLength_spec (name : Bytes) :
    nameLength name ≤ maxNameCharacters ∧ (∀ i < nameLength name, name i ≠ 0) ∧
      (nameLength name < maxNameCharacters → name (nameLength name) = 0) := by
  obtain ⟨-, hle, hpass, hstop⟩ := Scan.scan_spec (fun i => name i != 0) 0 maxNameCharacters
  rw [Nat.zero_add] at hle hstop
  refine ⟨hle, fun i hi => ?_, fun hlt => ?_⟩
  · simpa only [bne_iff_ne] using hpass i (Nat.zero_le i) hi
  · exact bne_eq_false_iff_eq.1 (hstop hlt)

/-- Two names agree if they do up to the NUL that ends the second one. -/
theorem name_eq_iff {d e : Dentry} :
    d.name = e.name ↔
      ∀ j ≤ nameLength e.fileName, j < maxNameCharacters → d.fileName j = e.fileName j := by
  obtain ⟨hle, hchars, hend⟩ := nameLength_spec e.fileName
  unfold Dentry.name
  rw [firstBytes_eq_iff]
  constructor
  · rintro ⟨hlen, hbytes⟩ j hj hmax
    rcases Nat.eq_or_lt_of_le hj with rfl | hlt
    · rw [hend hmax, ← hlen]
      exact (nameLength_spec d.fileName).2.2 (hlen ▸ hmax)
    · exact hbytes j (hlen ▸ hlt)
  · intro hbytes
    have hlen : nameLength d.fileName = nameLength e.fileName := by
      refine Scan.scan_eq_of _ (Nat.zero_le _) (by omega) (fun j _ hj => ?_) (fun hlt => ?_)
      · rw [hbytes j hj.le (by omega), bne_iff_ne]
        exact hchars j hj
      · rw [hbytes _ le_rfl (by omega), bne_eq_false_iff_eq]
        exact hend (by omega)
    exact ⟨hlen, fun i hi => hbytes i (by omega) (by omega)⟩

/-- `strncpy`, up to the NUL that ends its source: the bytes past the `n`-th are the old ones. -/
theorem strncpy_get (dest src : Bytes) (n : Nat) {j : Nat} (h : ∀ m < j, src m ≠ 0) :
    strncpy dest src n j = if j < n then src j else dest j := by
  obtain ⟨-, hle, hpass, hstop⟩ := Scan.scan_spec (fun i => src i != 0) 0 n
  rw [Nat.zero_add] at hle hstop
  unfold strncpy
  split_ifs with hcopied hfill hfill
  · rfl
  · omega
  · -- the copy has stopped at `j`: the source ends there
    have hnul : src (Scan.scan (fun i => src i != 0) 0 n) = 0 := by simpa using hstop (by omega)
    rcases Nat.eq_or_lt_of_le (Nat.le_of_not_lt hcopied) with heq | hlt
    · rw [← heq, hnul]
    · exact absurd hnul (h _ hlt)
  · rfl

/-- A lookup that succeeds: it was given `dentry`, found the slot `i` and left `found`. -/
inductive FoundAt (img : Image) (fs : FileSystem) (dentry : Dentry) : Nat → Dentry → Prop
  | byName {fname : Bytes} {i : Nat} {found : Dentry}
      (success : readDentryByName fs fname dentry = some found) (slot : i < maxEntries)
      (name : slotName img i = lookupKey fname) (lowest : ∀ j < i, slotName img j ≠ lookupKey fname) :
      FoundAt img fs dentry i found
  | byIndex {index : UInt32} {found : Dentry}
      (success : readDentryByIndex fs index dentry = some found) (listed : index < fs.numEntries) :
      FoundAt img fs dentry index.toNat found

/-- The bytes the copy leaves as they were, up to the NUL of the entry's name, are those of the name. -/
def OldBytesFit (fs : FileSystem) (i : Nat) (dentry : Dentry) : Prop :=
  ∀ j, fs.characterCount i ≤ j → j ≤ nameLength (fs.entries i).fileName → j < maxNameCharacters →
    dentry.fileName j = (fs.entries i).fileName j

variable {img : Image} {table : Nat → Nat} {fs : FileSystem} {dentry found : Dentry} {i : Nat}

theorem fillDentry_name_iff :
    (fillDentry fs i dentry).name = (fs.entries i).name ↔ OldBytesFit fs i dentry := by
  have hchars := (nameLength_spec (fs.entries i).fileName).2.1
  have hget : ∀ j ≤ nameLength (fs.entries i).fileName, (fillDentry fs i dentry).fileName j
      = if j < fs.characterCount i then (fs.entries i).fileName j else dentry.fileName j :=
    fun j hj => strncpy_get _ _ _ fun m hm => hchars m (by omega)
  rw [name_eq_iff]
  constructor
  · intro h j hcount hj hmax
    have hname := h j hj hmax
    rwa [hget j hj, if_neg (by omega)] at hname
  · intro h j hj hmax
    rw [hget j hj]
    split_ifs with hcopied
    · rfl
    · exact h j (by omega) hj hmax

/-- In the 63 slots only the byte behind the name counts. -/
theorem oldBytesFit_iff (hi : i < maxEntries) :
    OldBytesFit (filesystemInit img table) i dentry ↔
      (slotName img i).length = maxNameCharacters ∨ dentry.fileName (slotName img i).length = 0 := by
  obtain ⟨hle, -, hend⟩ := nameLength_spec (img.bootBlock.dirEntries i).fileName
  have hlen : (slotName img i).length = nameLength (img.bootBlock.dirEntries i).fileName := by
    rw [← name_eq_slotName]
    exact length_firstBytes _ _
  have hcount : (filesystemInit img table).characterCount i
      = nameLength (img.bootBlock.dirEntries i).fileName := filesystemInit_countsNames img table i hi
  have hentries : (filesystemInit img table).entries = img.bootBlock.dirEntries := rfl
  unfold OldBytesFit
  rw [hcount, hentries, hlen]
  constructor
  · intro h
    rcases Nat.eq_or_lt_of_le hle with heq | hlt
    · exact Or.inl heq
    · exact Or.inr ((h _ le_rfl le_rfl hlt).trans (hend hlt))
  · intro h j hlo hhi hmax
    obtain rfl : j = nameLength (img.bootBlock.dirEntries i).fileName := le_antisymm hhi hlo
    rcases h with heq | hnul
    · omega
    · exact hnul.trans (hend hmax).symm

/-- The name in the entry a lookup leaves is that of the slot it found exactly if the old bytes behind
    the copied ones happen to fit. -/
theorem foundName_iff (h : FoundAt img (filesystemInit img table) dentry i found) :
    found.name = slotName img i ↔ OldBytesFit (filesystemInit img table) i dentry := by
  rw [← name_eq_slotName]
  have hfill : found = fillDentry (filesystemInit img table) i dentry := by
    cases h with
    | byName success _ name lowest =>
        obtain ⟨i', -, hname, hlowest, heq⟩ := readDentryByName_slot success
        -- both are the lowest slot with the name
        have hi : i' = i := le_antisymm (not_lt.1 fun hlt => hlowest _ hlt name)
          (not_lt.1 fun hlt => lowest _ hlt hname)
        rw [heq, hi]
    | byIndex success =>
        unfold readDentryByIndex at success
        split_ifs at success
        exact (Option.some.inj success).symm
  rw [hfill]
  exact fillDentry_name_iff

/-- A directory with one entry, named `a`. -/
def oneEntryImage : Image where
  bootBlock :=
    { numDirEntries := 1
      N := 1
      D := 1
      dirEntries := fun i => if i = 0 then ⟨cstr (ascii "a"), 2, 0⟩ else ⟨fun _ => 0, 0, 0⟩ }
  inodes := fun _ => ⟨0, fun _ => 0⟩
  dataBlocks := fun _ _ => 0

def oneEntryFs : FileSystem := filesystemInit oneEntryImage fun _ => 0

/-- A structure that held the name `zz`. -/
def usedDentry : Dentry := ⟨cstr (ascii "zz"), 0, 0⟩

/-- Its entry, looked up by index into a cleared structure. -/
theorem foundName_cleared :
    (fillDentry oneEntryFs 0 ⟨fun _ => 0, 0, 0⟩).name = slotName oneEntryImage 0 := by
  have hfound : FoundAt oneEntryImage oneEntryFs ⟨fun _ => 0, 0, 0⟩ (0 : UInt32).toNat
      (fillDentry oneEntryFs 0 ⟨fun _ => 0, 0, 0⟩) := .byIndex rfl (by decide)
  exact (foundName_iff hfound).2 ((oldBytesFit_iff (by decide)).2 (Or.inr rfl))

/-- Looked up by name into a structure that held the name `zz`: the name comes out as `az`. -/
theorem foundName_not_right :
    ¬ ∀ (img : Image) (table : Nat → Nat) (dentry found : Dentry) (i : Nat),
      FoundAt img (filesystemInit img table) dentry i found → found.name = slotName img i := by
  intro hall
  have hlookup : readDentryByName oneEntryFs (cstr (ascii "a")) usedDentry
      = some (fillDentry oneEntryFs 0 usedDentry) := rfl
  have hname := hall oneEntryImage (fun _ => 0) usedDentry _ 0
    (.byName hlookup (by decide) (by decide) fun j hj => absurd hj (Nat.not_lt_zero j))
  revert hname
  decide

end BaseOs
