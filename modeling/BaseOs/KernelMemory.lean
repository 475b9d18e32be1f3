import BaseOs.Kernel
import BaseOs.Lib.Cells

set_option autoImplicit false

/-! # The kernel's memory, as pointers see it

System calls take pointers from programs and mostly test only that they are not NULL, and the kernel's
4 MB page is mapped while they run. So a call can be made to store into the kernel's own variables. Here
the address space of a call is laid out: physical addresses outside the kernel's frame are `mem`, those
inside it are the saved lines, the PCBs with their arguments and descriptors, and the rest, which is not
kept track of. -/

namespace BaseOs

open Kernel Cells

/-- `KERNEL_MEM`: the frame the kernel lies in, up to its stacks. -/
def kernelFrame : Nat := 0x00400000

/-- The first address of the kernel stacks and the PCBs below them. -/
def pcbArea : Nat := kStackBottom - 8 * processSize

/-- `process_array[i]`: the PCB of a slot is at the low end of its kernel stack. -/
def pcbAddr (p : Slot) : Nat := kStackBottom - processSize * (p.val + 1)

/-- Where the linker put `save_buff` and the five jump tables. -/
structure KernelMap where
  saveBuff : Nat
  rtcOps : UInt32
  filesysOps : UInt32
  dirOps : UInt32
  termOps : UInt32
  kybdOps : UInt32
  saveBuff_inside : kernelFrame ≤ saveBuff ∧ saveBuff + 3 * termBuffSize ≤ pcbArea
  ops_apart : [0, rtcOps, filesysOps, dirOps, termOps, kybdOps].Nodup

/-- A map as the linker could make it. -/
def smallMap : KernelMap where
  saveBuff := 0x00405000
  rtcOps := 0x00406000
  filesysOps := 0x00406010
  dirOps := 0x00406020
  termOps := 0x00406030
  kybdOps := 0x00406040
  saveBuff_inside := by decide
  ops_apart := by decide

variable (map : KernelMap)

/-! ## Words and their bytes -/

/-- Byte `j` of a word, lowest first. -/
def wordByte (w : UInt32) (j : Fin 4) : UInt8 := UInt8.ofNat (w.toNat / 2 ^ (8 * j.val))

/-- The word with byte `j` replaced. -/
def setWordByte (w : UInt32) (j : Fin 4) (b : UInt8) : UInt32 :=
  UInt32.ofNat (w.toNat - w.toNat / 2 ^ (8 * j.val) % 256 * 2 ^ (8 * j.val) + b.toNat * 2 ^ (8 * j.val))

/-- The address `fd_jump` holds. -/
def KernelMap.jumpAddr : Option OpsTable → UInt32
  | none => 0
  | some .rtc => map.rtcOps
  | some .filesys => map.filesysOps
  | some .dir => map.dirOps
  | some .term => map.termOps
  | some .kybd => map.kybdOps
  | some (.wild address) => address

/-- What is at an address `fd_jump` holds. -/
def KernelMap.jumpAt (address : UInt32) : Option OpsTable :=
  if address = 0 then none
  else if address = map.rtcOps then some .rtc
  else if address = map.filesysOps then some .filesys
  else if address = map.dirOps then some .dir
  else if address = map.termOps then some .term
  else if address = map.kybdOps then some .kybd
  else some (.wild address)

/-- The four words of an `fd_t`, in order. -/
def Fd.word (fd : Fd) : Fin 4 → UInt32
  | 0 => map.jumpAddr fd.fdJump
  | 1 => fd.inodePtr.toUInt32
  | 2 => fd.filePosition
  | 3 => fd.flags

/-- An `fd_t` with one word replaced. -/
def Fd.setWord (fd : Fd) (i : Fin 4) (w : UInt32) : Fd :=
  match i with
  | 0 => { fd with fdJump := map.jumpAt w }
  | 1 => { fd with inodePtr := w.toInt32 }
  | 2 => { fd with filePosition := w }
  | 3 => { fd with flags := w }

/-! ## Cells -/

/-- What lies at a physical address. -/
inductive Cell
  /-- `save_buff[t][i]`. -/
  | saved (t : Terminal) (i : Nat)
  /-- `args[i]` of a PCB. -/
  | args (p : Slot) (i : Nat)
  /-- A byte of a word of `fd_table[i]` of a PCB. -/
  | entry (p : Slot) (i : FdIndex) (word byte : Fin 4)
  /-- Anything else in the kernel's frame. -/
  | kernel (pa : Nat)
  /-- Screens and programs. -/
  | memory (pa : Nat)
  deriving DecidableEq

/-- `sizeof` of the words before `args`, of `args`, and of the whole PCB. -/
def argsOffset : Nat := 24
def fdTableOffset : Nat := 152
def pcbSize : Nat := 280

/-- The cell at offset `off` of a PCB. -/
def pcbCell (p : Slot) (pa off : Nat) : Cell :=
  if off < argsOffset then .kernel pa
  else if off < fdTableOffset then .args p (off - argsOffset)
  else if off < pcbSize then
    .entry p (Fin.ofNat 8 ((off - fdTableOffset) / 16)) (Fin.ofNat 4 ((off - fdTableOffset) / 4))
      (Fin.ofNat 4 (off - fdTableOffset))
  else .kernel pa

/-- The cell at a physical address. -/
def cellAt (pa : Nat) : Cell :=
  if pa < kernelFrame ∨ kStackBottom ≤ pa then .memory pa
  else if map.saveBuff ≤ pa ∧ pa < map.saveBuff + 3 * termBuffSize then
    .saved (Fin.ofNat 3 ((pa - map.saveBuff) / termBuffSize)) ((pa - map.saveBuff) % termBuffSize)
  else if pcbArea ≤ pa then
    let p : Slot := Fin.ofNat 8 ((kStackBottom - 1 - pa) / processSize)
    pcbCell p pa (pa - pcbAddr p)
  else .kernel pa

/-- A byte of the kernel's memory, or of the memory it works on. `rest` is what is in the part of its
    frame that is not kept track of. -/
def Kernel.loadCell (rest : Bytes) (k : Kernel) : Cell → UInt8
  | .saved t i => k.saveBuff t i
  | .args p i => (k.pcb p).args i
  | .entry p i word byte => wordByte (((k.pcb p).fdTable i).word map word) byte
  | .kernel pa => rest pa
  | .memory pa => k.mem pa

/-- A store into a cell; `none` is a store into the part of the kernel that is not kept track of. -/
def Kernel.storeCell (k : Kernel) (c : Cell) (b : UInt8) : Option Kernel :=
  match c with
  | .saved t i =>
    some { k with saveBuff := Function.update k.saveBuff t (Function.update (k.saveBuff t) i b) }
  | .args p i =>
    some (k.setPcb p { k.pcb p with args := Function.update (k.pcb p).args i b })
  | .entry p i word byte =>
    let fd := (k.pcb p).fdTable i
    some (k.setFdTable p (Function.update (k.pcb p).fdTable i
      (fd.setWord map word (setWordByte (fd.word map word) byte b))))
  | .kernel _ => none
  | .memory pa => some { k with mem := Function.update k.mem pa b }

variable {map} {k k' : Kernel} {c : Cell} {b : UInt8}

/-- What no store through a pointer changes: the page tables, the process tables and the devices. -/
theorem storeCell_fixed (h : k.storeCell map c b = some k') :
    k' = { k with saveBuff := k'.saveBuff, pcb := k'.pcb, mem := k'.mem } := by
  cases c with
  | kernel pa => cases h
  | _ =>
      obtain rfl := Option.some.inj h
      rfl

/-- The kernel seen through its page mappings. -/
def kernelView (cfg : Config) (map : KernelMap) (rest : Bytes) : View Kernel Cell where
  cell k va := (kernelAddr cfg.lay k.paging (va % 2 ^ 32)).map (cellAt map)
  load := Kernel.loadCell map rest
  store := Kernel.storeCell map
  cell_store h := by rw [storeCell_fixed h]

/-! ## Where the cells are -/

/-- The address of `save_buff[t][i]`. -/
def KernelMap.savedAddr (t : Terminal) (i : Nat) : Nat := map.saveBuff + termBuffSize * t.val + i

/-- The address of a byte of `fd_table[i]`. -/
def entryAddr (p : Slot) (i : FdIndex) (word byte : Fin 4) : Nat :=
  pcbAddr p + fdTableOffset + 16 * i.val + 4 * word.val + byte.val

theorem cellAt_savedAddr (t : Terminal) {i : Nat} (hi : i < termBuffSize) :
    cellAt map (map.savedAddr t i) = .saved t i := by
  have hinside := map.saveBuff_inside
  have ht := t.isLt
  unfold termBuffSize at *
  unfold cellAt KernelMap.savedAddr
  unfold pcbArea kStackBottom processSize kernelFrame termBuffSize at *
  rw [if_neg (by omega), if_pos (by omega)]
  have hrow : (map.saveBuff + 128 * t.val + i - map.saveBuff) / 128 = t.val := by omega
  have hoff : (map.saveBuff + 128 * t.val + i - map.saveBuff) % 128 = i := by omega
  rw [hrow, hoff]
  congr 1
  exact Fin.ext (Nat.mod_eq_of_lt ht)

theorem pcbCell_entry (p : Slot) (pa : Nat) (i : FdIndex) (word byte : Fin 4) :
    pcbCell p pa (fdTableOffset + (16 * i.val + 4 * word.val + byte.val)) = .entry p i word byte := by
  have hentry : Fin.ofNat 8 ((16 * i.val + 4 * word.val + byte.val) / 16) = i :=
    Fin.ext (by simp only [Fin.ofNat]; omega)
  have hword : Fin.ofNat 4 ((16 * i.val + 4 * word.val + byte.val) / 4) = word :=
    Fin.ext (by simp only [Fin.ofNat]; omega)
  have hbyte : Fin.ofNat 4 (16 * i.val + 4 * word.val + byte.val) = byte :=
    Fin.ext (by simp only [Fin.ofNat]; omega)
  unfold pcbCell argsOffset fdTableOffset pcbSize
  rw [if_neg (by omega), if_neg (by omega), if_pos (by omega), Nat.add_sub_cancel_left, hentry, hword, hbyte]

theorem cellAt_entryAddr (p : Slot) (i : FdIndex) (word byte : Fin 4) :
    cellAt map (entryAddr p i word byte) = .entry p i word byte := by
  have hinside := map.saveBuff_inside
  have hoff : entryAddr p i word byte - pcbAddr p
      = fdTableOffset + (16 * i.val + 4 * word.val + byte.val) := by
    unfold entryAddr
    omega
  have hslot : Fin.ofNat 8 ((kStackBottom - 1 - entryAddr p i word byte) / processSize) = p := by
    unfold entryAddr pcbAddr kStackBottom processSize fdTableOffset
    refine Fin.ext ((Nat.mod_eq_of_lt ?_).trans ?_) <;> omega
  have harea : pcbArea ≤ entryAddr p i word byte ∧ entryAddr p i word byte < kStackBottom := by
    unfold entryAddr pcbAddr pcbArea kStackBottom processSize fdTableOffset
    omega
  have hframe : kernelFrame ≤ pcbArea := by decide
  unfold cellAt
  rw [if_neg (by omega), if_neg (by omega), if_pos harea.1]
  simp only [hslot, hoff]
  exact pcbCell_entry p _ i word byte

/-! ## The mapping of the kernel -/

/-- The kernel's frame is mapped where it lies. -/
def KernelMapped (pg : Paging) : Prop := pg.pageDirectory 1 = kernelMem ||| rwPSizeSet

theorem KernelMapped.kernelAddr {lay : Layout} {pg : Paging} (h : KernelMapped pg) {va : Nat}
    (hlo : kernelFrame ≤ va) (hhi : va < kStackBottom) : kernelAddr lay pg va = some va := by
  unfold kernelFrame at hlo
  unfold kStackBottom at hhi
  have hdir : va / 2 ^ 22 % 1024 = 1 := by omega
  have hpresent : isPresent (kernelMem ||| rwPSizeSet) = true := by decide
  have hlarge : isLarge (kernelMem ||| rwPSizeSet) = true := by decide
  have hframe : (kernelMem ||| rwPSizeSet).toNat / 2 ^ 22 * 2 ^ 22 = 0x400000 := by decide
  unfold KernelMapped at h
  unfold BaseOs.kernelAddr translate
  generalize kernelMem ||| rwPSizeSet = entry at h hpresent hlarge hframe
  simp only [hdir, h, hpresent, hlarge, if_true, hframe, Option.map_some]
  congr 1
  omega

end BaseOs
