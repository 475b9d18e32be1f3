import BaseOs.Paging

set_option autoImplicit false

/-! # Facts about translation

Where the addresses the kernel uses translate to: the program page (through the directory entry
`add_process` writes), and the page above it, which no operation maps. Stores through a mapping touch
only what the mapping reaches. -/

namespace BaseOs

variable {lay : Layout} {pg : Paging}

/-! ## The program page -/

/-- The directory entry of the program page for a process slot. -/
def processEntry (i : Fin 8) : UInt32 :=
  (userSpace + UInt32.ofNat i.val * processSize4M) ||| processSet

theorem processEntry_bits (i : Fin 8) :
    isPresent (processEntry i) = true ∧ isLarge (processEntry i) = true ∧
      isUser (processEntry i) = true ∧
      (processEntry i).toNat / 2 ^ 22 * 2 ^ 22 = 0x800000 + i.val * 0x400000 := by
  revert i
  decide

theorem addProcess_entry (i : Fin 8) :
    (addProcess pg (UInt32.ofNat i.val)).pageDirectory processIdx = processEntry i := by
  simp only [addProcess, processEntry, Function.update_self]

theorem addProcess_of_ne {p : UInt32} {j : Nat} (hj : j ≠ processIdx) :
    (addProcess pg p).pageDirectory j = pg.pageDirectory j := Function.update_of_ne hj _ _

/-- Addresses of the program page reach the frame of the process mapped last. -/
theorem kernelAddr_program {i : Fin 8} {va : Nat}
    (hentry : pg.pageDirectory processIdx = processEntry i)
    (hlo : 0x08000000 ≤ va) (hhi : va < 0x08400000) :
    kernelAddr lay pg va = some (0x800000 + i.val * 0x400000 + (va - 0x08000000)) := by
  obtain ⟨hp, hl, hu, hframe⟩ := processEntry_bits i
  have hidx : va / 2 ^ 22 % 1024 = processIdx := by unfold processIdx; omega
  have hoff : va % 2 ^ 22 = va - 0x08000000 := by omega
  unfold kernelAddr translate
  simp only [hidx, hentry, hp, hl, if_true, Option.map_some, hframe, hoff]

/-- An address whose directory entry is not present is not mapped. -/
theorem kernelAddr_absent {va : Nat} (h : isPresent (pg.pageDirectory (va / 2 ^ 22 % 1024)) = false) :
    kernelAddr lay pg va = none := by
  unfold kernelAddr translate
  simp only [h, Bool.false_eq_true, if_false, Option.map_none]

/-- User code's addresses go where the kernel's would. -/
theorem kernelAddr_of_userAddr {va pa : Nat} (h : userAddr lay pg va = some pa) :
    kernelAddr lay pg va = some pa := by
  unfold userAddr at h
  unfold kernelAddr
  split at h
  · next tr htr =>
      rw [htr]
      split_ifs at h
      exact h
  · cases h

/-! ## Stores through a mapping -/

variable {addr : Nat → Option Nat}

/-- A sequence of stores without a fault found every address mapped. -/
theorem storeVirt_mapped {data : List UInt8} {va : Nat} {mem mem' : Bytes}
    (h : storeVirt addr va data mem = (mem', false)) :
    ∀ j < data.length, (addr ((va + j) % 2 ^ 32)).isSome := by
  induction data generalizing va mem with
  | nil => intro j hj; simp at hj
  | cons b bs ih =>
      intro j hj
      rw [storeVirt] at h
      split at h
      · simp at h
      · next pa hpa =>
          cases j with
          | zero => rw [Nat.add_zero, hpa]; rfl
          | succ j =>
              have := ih h j (by simpa using hj)
              rwa [show va + (j + 1) = va + 1 + j by omega]

/-- Stores whose addresses are all mapped do not fault. -/
theorem storeVirt_noFault {data : List UInt8} {va : Nat} {mem : Bytes}
    (h : ∀ j < data.length, (addr ((va + j) % 2 ^ 32)).isSome) :
    (storeVirt addr va data mem).2 = false := by
  induction data generalizing va mem with
  | nil => rfl
  | cons b bs ih =>
      obtain ⟨pa, hpa⟩ := Option.isSome_iff_exists.1 (h 0 (by simp))
      rw [Nat.add_zero] at hpa
      rw [storeVirt, hpa]
      refine ih fun j hj => ?_
      rw [show va + 1 + j = va + (j + 1) by omega]
      exact h (j + 1) (by simpa using hj)

/-- Stores leave every byte alone that no used address reaches. -/
theorem storeVirt_frame {data : List UInt8} {va : Nat} {mem mem' : Bytes} {fault : Bool} {a : Nat}
    (h : storeVirt addr va data mem = (mem', fault))
    (hoff : ∀ j < data.length, addr ((va + j) % 2 ^ 32) ≠ some a) : mem' a = mem a := by
  induction data generalizing va mem with
  | nil =>
      simp only [storeVirt, Prod.mk.injEq] at h
      rw [h.1]
  | cons b bs ih =>
      rw [storeVirt] at h
      split at h
      · simp only [Prod.mk.injEq] at h
        rw [h.1]
      · next pa hpa =>
          have hne : a ≠ pa := by
            rintro rfl
            exact hoff 0 (by simp) (by rw [Nat.add_zero, hpa])
          rw [ih h fun j hj => ?_, Function.update_of_ne hne]
          rw [show va + 1 + j = va + (j + 1) by omega]
          exact hoff (j + 1) (by simpa using hj)

/-- Bytes stored to addresses that lie one after the other in memory are found there. -/
theorem storeVirt_get {data : List UInt8} {va pa : Nat} {mem mem' : Bytes} {fault : Bool}
    (h : storeVirt addr va data mem = (mem', fault))
    (hmap : ∀ j < data.length, addr ((va + j) % 2 ^ 32) = some (pa + j)) :
    ∀ j (hj : j < data.length), mem' (pa + j) = data[j] := by
  induction data generalizing va pa mem with
  | nil =>
      intro j hj
      cases hj
  | cons b bs ih =>
      have hfirst := hmap 0 (Nat.succ_pos _)
      rw [Nat.add_zero, Nat.add_zero] at hfirst
      have hrest : ∀ j < bs.length, addr ((va + 1 + j) % 2 ^ 32) = some (pa + 1 + j) := by
        intro j hj
        rw [Nat.add_assoc, Nat.add_assoc, Nat.add_comm 1 j]
        exact hmap (j + 1) (Nat.succ_lt_succ hj)
      rw [storeVirt, hfirst] at h
      intro j hj
      cases j with
      | zero =>
          -- the later stores go to higher addresses
          have hframe := storeVirt_frame h (a := pa) fun j hj => by
            rw [hrest j hj, ne_eq, Option.some.injEq]
            omega
          rw [Nat.add_zero, hframe, Function.update_self]
          rfl
      | succ j =>
          have hnext := ih h hrest j (Nat.lt_of_succ_lt_succ hj)
          rw [Nat.add_assoc, Nat.add_comm 1 j] at hnext
          rw [hnext, List.getElem_cons_succ]

/-! ## Loading a program -/

/-- The room for a program: from `PROGRAM_START` to the end of the program page. -/
def programRoom : Nat := 0x3B8000

/-- The page above the program page: no operation of the kernel maps it. -/
def aboveProgram : Nat := 33

variable {i : Fin 8} {data : List UInt8} {mem mem' : Bytes}

/-- A program was stored without a fault only if it fits into the room for it. -/
theorem load_length_le (habove : isPresent (pg.pageDirectory aboveProgram) = false)
    (h : storeVirt (kernelAddr lay pg) 0x08048000 data mem = (mem', false)) :
    data.length ≤ programRoom := by
  by_contra hlong
  have hsome := storeVirt_mapped h programRoom (by omega)
  have habs : kernelAddr lay pg ((0x08048000 + programRoom) % 2 ^ 32) = none :=
    kernelAddr_absent habove
  rw [habs] at hsome
  cases hsome

/-- A program that fits is stored without a fault. -/
theorem load_noFault (hentry : pg.pageDirectory processIdx = processEntry i)
    (hlen : data.length ≤ programRoom) :
    (storeVirt (kernelAddr lay pg) 0x08048000 data mem).2 = false := by
  refine storeVirt_noFault fun j hj => ?_
  unfold programRoom at hlen
  rw [kernelAddr_program hentry (by omega) (by omega)]
  rfl

/-- Loading a program writes only above the first 8 MB. -/
theorem load_frame (hentry : pg.pageDirectory processIdx = processEntry i)
    (habove : isPresent (pg.pageDirectory aboveProgram) = false)
    (h : storeVirt (kernelAddr lay pg) 0x08048000 data mem = (mem', false)) {a : Nat}
    (ha : a < 0x800000) : mem' a = mem a := by
  have hlen := load_length_le habove h
  refine storeVirt_frame h fun j hj => ?_
  unfold programRoom at hlen
  rw [kernelAddr_program hentry (by omega) (by omega)]
  simp only [ne_eq, Option.some.injEq]
  omega

end BaseOs
