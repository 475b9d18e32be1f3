import BaseOs.Str

set_option autoImplicit false

/-! # Paging (`paging.h`, `paging.c`)

The page directory and the two page tables, the operations that change them, and the processor's
two-level translation. `flush_tlb` has no effect on the tables: after it the translation is the one
they describe. Memory is physical memory, by address; it holds what the kernel reaches through page
mappings (the screen pages and the programs), while the kernel's own variables are modelled by the
state record. -/

namespace BaseOs

/-- `VIDEO`: the text screen. -/
def videoAddr : Nat := 0xB8000

def fourKiB : Nat := 0x1000

/-- `VIRT_VID_TERM1`; the pages of the other terminals follow it. -/
def virtVidTerm1 : Nat := 0x10000000

/-- `BACKUP_VID1`; the backups of the other terminals follow it. -/
def backupVid1 : Nat := 0xB9000

def rwSetOnly : UInt32 := 0x2
def rwPSet : UInt32 := rwSetOnly ||| 0x1
def rwPSizeSet : UInt32 := rwPSet ||| 0x80
def processSet : UInt32 := 0x87
def userMask : UInt32 := 0x7

/-- `USER_VIDEO_`. -/
def userVideo : UInt32 := UInt32.ofNat videoAddr ||| userMask

/-- `USER_BACK1`. -/
def userBack1 : UInt32 := UInt32.ofNat backupVid1 ||| userMask

def kernelMem : UInt32 := 0x00400000
def userSpace : UInt32 := 0x00800000
/-- `PROCESS_SIZE_`: the size of a program's frame. -/
def processSize4M : UInt32 := 0x00400000
def processIdx : Nat := 32

/-- Where the linker put the two page tables: aligned to a page, and apart. -/
structure Layout where
  pageTable : UInt32
  userPageTable : UInt32
  pageTable_aligned : pageTable.toNat % 4096 = 0
  userPageTable_aligned : userPageTable.toNat % 4096 = 0
  apart : pageTable ≠ userPageTable

/-- Two page tables in the kernel's memory. -/
def smallLayout : Layout := ⟨0x401000, 0x402000, rfl, rfl, by decide⟩

structure Paging where
  pageDirectory : Nat → UInt32
  pageTable : Nat → UInt32
  userPageTable : Nat → UInt32

variable (lay : Layout)

/-- `add_process`. -/
def addProcess (pg : Paging) (processId : UInt32) : Paging :=
  { pg with
    pageDirectory := Function.update pg.pageDirectory processIdx
      ((userSpace + processId * processSize4M) ||| processSet) }

/-- `map_virt_to_phys`. -/
def mapVirtToPhys (pg : Paging) (virtualAddress : Nat) (phys : UInt32) : Paging :=
  { pg with
    pageDirectory := Function.update pg.pageDirectory (virtualAddress / 2 ^ 22)
      (lay.userPageTable ||| userMask)
    userPageTable := Function.update pg.userPageTable (virtualAddress % 2 ^ 22 / 2 ^ 12)
      (phys ||| rwPSet) }

/-- `paging_init`: `user_page_table` is not cleared, it starts as the loader left it. -/
def pagingInit (pg : Paging) : Paging :=
  let directory : Nat → UInt32 := fun i =>
    if i = 1 then kernelMem ||| rwPSizeSet
    else if i = 0 then lay.pageTable ||| rwPSet
    else if i < 1024 then rwSetOnly
    else pg.pageDirectory i
  let table : Nat → UInt32 := fun i =>
    if i = videoAddr / 2 ^ 12 then UInt32.ofNat videoAddr ||| rwPSet
    else if i < 1024 then rwSetOnly
    else pg.pageTable i
  let pg1 : Paging := { pg with pageDirectory := directory, pageTable := table }
  let pg2 := mapVirtToPhys lay pg1 virtVidTerm1 (UInt32.ofNat backupVid1)
  let pg3 := mapVirtToPhys lay pg2 (virtVidTerm1 + fourKiB) (UInt32.ofNat (backupVid1 + fourKiB))
  mapVirtToPhys lay pg3 (virtVidTerm1 + 2 * fourKiB) (UInt32.ofNat (backupVid1 + 2 * fourKiB))

/-! ## Translation -/

def isPresent (entry : UInt32) : Bool := entry.toNat % 2 == 1
def isUser (entry : UInt32) : Bool := entry.toNat / 4 % 2 == 1
def isLarge (entry : UInt32) : Bool := entry.toNat / 128 % 2 == 1

/-- Where an address translates to, and whether user code may use the mapping. -/
structure Translation where
  phys : Nat
  user : Bool
  deriving DecidableEq

/-- The page table a directory entry points at. -/
def tableAt (pg : Paging) (entry : UInt32) : Option (Nat → UInt32) :=
  if entry.toNat / 4096 * 4096 = lay.pageTable.toNat then some pg.pageTable
  else if entry.toNat / 4096 * 4096 = lay.userPageTable.toNat then some pg.userPageTable
  else none

/-- The x86 two-level translation: a 4 MB page when the size bit of the directory entry is set, else
    through a page table; user access needs the user bit at every level. -/
def translate (pg : Paging) (va : Nat) : Option Translation :=
  let pde := pg.pageDirectory (va / 2 ^ 22 % 1024)
  if isPresent pde then
    if isLarge pde then some ⟨pde.toNat / 2 ^ 22 * 2 ^ 22 + va % 2 ^ 22, isUser pde⟩
    else
      match tableAt lay pg pde with
      | none => none
      | some table =>
        let pte := table (va / 2 ^ 12 % 1024)
        if isPresent pte then
          some ⟨pte.toNat / 4096 * 4096 + va % 4096, isUser pde && isUser pte⟩
        else none
  else none

/-- Where the kernel's own accesses go. -/
def kernelAddr (pg : Paging) (va : Nat) : Option Nat := (translate lay pg va).map (·.phys)

/-- Where accesses of user code go; `none` is a page fault. -/
def userAddr (pg : Paging) (va : Nat) : Option Nat :=
  match translate lay pg va with
  | some tr => if tr.user then some tr.phys else none
  | none => none

/-! ## Stores and copies through a mapping -/

/-- Store bytes at consecutive virtual addresses, one after the other. The flag says whether a page
    fault stopped the stores. -/
def storeVirt (addr : Nat → Option Nat) : Nat → List UInt8 → Bytes → Bytes × Bool
  | _, [], mem => (mem, false)
  | va, b :: bs, mem =>
    match addr (va % 2 ^ 32) with
    | none => (mem, true)
    | some pa => storeVirt addr (va + 1) bs (Function.update mem pa b)

/-- `memcpy`, byte by byte; `none` is a page fault. -/
def memcpy (addr : Nat → Option Nat) : Nat → Nat → Nat → Bytes → Option Bytes
  | _, _, 0, mem => some mem
  | dst, src, n + 1, mem =>
    match addr (src % 2 ^ 32), addr (dst % 2 ^ 32) with
    | some ps, some pd => memcpy addr (dst + 1) (src + 1) n (Function.update mem pd (mem ps))
    | _, _ => none

end BaseOs
