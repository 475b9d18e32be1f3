import BaseOs.FileSystem

set_option autoImplicit false

/-! # Descriptor tables (`fd_table.h`, `fd_table.c`)

The operations on the descriptor table of one process. `fd_jump` points at one of five jump tables;
which functions each holds is fixed by `fops_table_init`, so the pointer is modelled by the name of
the table. The kernel puts no other pointer there; a program that has it store into a descriptor table
can. Indices come from user programs as `int32_t` and are modelled by integers. -/

namespace BaseOs

def maxOpenFiles : Nat := 8
def firstValidIndex : Nat := 2
def fdOff : UInt32 := 0
def fdOn : UInt32 := 1

/-- The five `fd_op_table_t` structures; `wild` is an address at which none of them is. -/
inductive OpsTable
  | rtc
  | filesys
  | dir
  | term
  | kybd
  | wild (address : UInt32)
  deriving DecidableEq

/-- `fd_t`; `fdJump = none` is the NULL pointer. -/
structure Fd where
  fdJump : Option OpsTable
  inodePtr : Int32
  filePosition : UInt32
  flags : UInt32
  deriving DecidableEq

abbrev FdIndex := Fin 8

/-- The numerals of `FdIndex` and of the process slots rest on this instance. -/
instance slot_neZero : NeZero (8 : Nat) := ⟨by decide⟩

abbrev FdTable := FdIndex → Fd

/-- The contents of an entry that is not in use. -/
def Fd.closed : Fd := ⟨none, -1, 0, fdOff⟩

theorem toNat_lt_eight {i : Int} (h : 0 ≤ i ∧ i < 8) : i.toNat < 8 := by omega

/-- The entry of the table an `int32_t` index names. -/
def fdIndex? (index : Int) : Option FdIndex :=
  if h : 0 ≤ index ∧ index < 8 then some ⟨index.toNat, toNat_lt_eight h⟩ else none

/-- `fd_table_init`. -/
def fdTableInit : FdTable := fun i =>
  if i = 0 then { Fd.closed with flags := fdOn, fdJump := some .kybd }
  else if i = 1 then { Fd.closed with flags := fdOn, fdJump := some .term }
  else Fd.closed

/-- `close_all_fd`. -/
def closeAllFd : FdTable := fun _ => Fd.closed

variable (table : FdTable)

/-- `get_fd_index`: the lowest entry from 2 on that is off. -/
def getFdIndex : Option FdIndex :=
  Fin.find? fun i => decide (firstValidIndex ≤ i.val) && (table i).flags == fdOff

/-- `set_fd_info`. -/
def setFdInfo (index : FdIndex) (fileInfo : Fd) : FdTable := Function.update table index fileInfo

/-- `close_fd`: nothing happens for an index outside the table. -/
def closeFd (index : Int) : FdTable :=
  match fdIndex? index with
  | some i => Function.update table i Fd.closed
  | none => table

/-- `add_offset`. -/
def addOffset (index : Int) (amt : UInt32) : FdTable :=
  match fdIndex? index with
  | some i => Function.update table i { table i with filePosition := (table i).filePosition + amt }
  | none => table

/-- `check_valid_fd`. -/
def checkValidFd (index : Int) : Bool :=
  match fdIndex? index with
  | some i => (table i).flags != 0
  | none => false

theorem fdIndex?_val (i : FdIndex) : fdIndex? (i.val : Int) = some i := by
  unfold fdIndex?
  rw [dif_pos (by omega)]
  rfl

theorem fdIndex?_eq_some {index : Int} {i : FdIndex} : fdIndex? index = some i ↔ index = i.val := by
  constructor
  · intro h
    unfold fdIndex? at h
    split_ifs at h with hr
    simp only [Option.some.injEq] at h
    subst h
    simp only
    omega
  · rintro rfl
    exact fdIndex?_val i

end BaseOs
