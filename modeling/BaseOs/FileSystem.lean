import BaseOs.Str

set_option autoImplicit false

/-! # The file system (`filesystem.h`, `filesystem.c`)

The image is a boot block, an array of inodes and an array of data blocks, never written after boot.
Arrays are functions of the index: an access past the end reads whatever follows in memory, which is
the value of the function there. `filesystemInit` caches the counts and the length of every name, as
the driver does; everything after it reads the cached values. -/

namespace BaseOs

def maxNameCharacters : Nat := 32
def maxEntries : Nat := 63
def maxInodeDataBlocks : Nat := 1023
def maxCharsInData : Nat := 4096

/-- `dentry_t`: the reserved words are never read. -/
structure Dentry where
  fileName : Bytes
  fileType : UInt32
  inodeIdx : UInt32

/-- `boot_block_t`. -/
structure BootBlock where
  numDirEntries : UInt32
  N : UInt32
  D : UInt32
  dirEntries : Nat → Dentry

/-- `inode_t`; the `int32_t` block numbers are only ever read into an unsigned variable. -/
structure Inode where
  fileSize : UInt32
  datablockIdx : Nat → UInt32

/-- What the boot loader puts in memory for the file system module. -/
structure Image where
  bootBlock : BootBlock
  inodes : Nat → Inode
  dataBlocks : Nat → Bytes

/-- The globals of the driver: the counts and tables it caches, and the pointers into the image. -/
structure FileSystem where
  numEntries : UInt32
  numInodes : UInt32
  numDataBlocks : UInt32
  entries : Nat → Dentry
  inodes : Nat → Inode
  dataBlocks : Nat → Bytes
  characterCount : Nat → Nat

/-- The length of an entry's name: `create_char_count`'s inner loop. -/
def nameLength (name : Bytes) : Nat := Scan.scan (fun i => name i != 0) 0 maxNameCharacters

/-- `create_char_count`: fill the 63 entries of the table; memory past it is left as it was. -/
def createCharCount (entries : Nat → Dentry) (table : Nat → Nat) : Nat → Nat :=
  fun i => if i < maxEntries then nameLength (entries i).fileName else table i

/-- `filesystem_init`. The table `characterCount` is a static array, so `table` is what memory holds
    there and after it. -/
def filesystemInit (img : Image) (table : Nat → Nat) : FileSystem where
  numEntries := img.bootBlock.numDirEntries
  numInodes := img.bootBlock.N
  numDataBlocks := img.bootBlock.D
  entries := img.bootBlock.dirEntries
  inodes := img.inodes
  dataBlocks := img.dataBlocks
  characterCount := createCharCount img.bootBlock.dirEntries table

/-! ## Directory lookups -/

/-- The caller's `dentry` after a successful lookup: the name is copied by `strncpy` with the cached
    length, so bytes past it keep their old value. -/
def fillDentry (fs : FileSystem) (i : Nat) (dentry : Dentry) : Dentry where
  fileName := strncpy dentry.fileName (fs.entries i).fileName (fs.characterCount i)
  fileType := (fs.entries i).fileType
  inodeIdx := (fs.entries i).inodeIdx

/-- The length of the name looked for: up to a space or a NUL, at most 32. -/
def givenNameLen (fname : Bytes) : Nat :=
  Scan.scan (fun i => fname i != 32 && fname i != 0) 0 maxNameCharacters

/-- Does the directory slot `i` hold the name looked for? -/
def entryMatches (fs : FileSystem) (fname : Bytes) (i : Nat) : Bool :=
  givenNameLen fname == fs.characterCount i &&
    strncmp fname (fs.entries i).fileName (fs.characterCount i) == 0

/-- `read_dentry_by_name`: `none` is the return value `-1`, with `*dentry` untouched. -/
def readDentryByName (fs : FileSystem) (fname : Bytes) (dentry : Dentry) : Option Dentry :=
  if givenNameLen fname = 0 then none
  else
    match Fin.find? fun i : Fin maxEntries => entryMatches fs fname i with
    | some i => some (fillDentry fs i dentry)
    | none => none

/-- `read_dentry_by_index`: the index is only compared with the size of the table. -/
def readDentryByIndex (fs : FileSystem) (index : UInt32) (dentry : Dentry) : Option Dentry :=
  if index.toNat > maxEntries then none
  else some (fillDentry fs index.toNat dentry)

/-! ## `read_data` -/

/-- A count of characters as the `int32_t` a function returns. -/
def toRet (n : Nat) : Int32 := (UInt32.ofNat n).toInt32

/-- What `read_data` returns, and the bytes it stores at the start of `buf`. -/
structure ReadResult where
  ret : Int32
  data : List UInt8
  deriving DecidableEq

/-- The inner loop: bytes `from`, …, `to - 1` of one data block. -/
def blockBytes (fs : FileSystem) (block : UInt32) (first last : Nat) : List UInt8 :=
  (List.range' first (last - first)).map (fs.dataBlocks block.toNat)

/-- The block loop of `read_data`, with `fuel` blocks left up to and including `endBlock`. `acc` holds
    the characters read so far, so `chars_read` is its length. -/
def readBlocks (fs : FileSystem) (inode : UInt32) (endBlock endOffset : Nat) :
    Nat → Nat → Nat → List UInt8 → ReadResult
  | 0, _, _, acc => ⟨toRet acc.length, acc⟩
  | fuel + 1, blockLoop, currByte, acc =>
    let currDataBlock := (fs.inodes inode.toNat).datablockIdx blockLoop
    if currDataBlock > fs.numDataBlocks then
      if acc.length = 0 then ⟨-1, acc⟩ else ⟨toRet acc.length, acc⟩
    else
      let endOfBlockByte := if blockLoop = endBlock then endOffset else maxCharsInData
      readBlocks fs inode endBlock endOffset fuel (blockLoop + 1) 0
        (acc ++ blockBytes fs currDataBlock currByte endOfBlockByte)

/-- The position up to which `read_data` reads: `offset + length` in 32 bits, cut to the file. -/
def endSearch (size offset length : UInt32) : Nat :=
  if (offset + length).toNat > size.toNat then size.toNat else (offset + length).toNat

/-- `read_data`. -/
def readData (fs : FileSystem) (inode offset length : UInt32) : ReadResult :=
  if inode ≥ fs.numInodes then ⟨-1, []⟩
  else
    let thisFileSize := (fs.inodes inode.toNat).fileSize
    if offset ≥ thisFileSize ∨ length = 0 then ⟨0, []⟩
    else
      let startBlock := offset.toNat / maxCharsInData
      let startOffset := offset.toNat % maxCharsInData
      let stop := endSearch thisFileSize offset length
      let endBlock := stop / maxCharsInData
      let endOffset := stop % maxCharsInData
      readBlocks fs inode endBlock endOffset (endBlock + 1 - startBlock) startBlock startOffset []

end BaseOs
