import BaseOs.Syscall.Enumeration
import BaseOs.User.Others

set_option autoImplicit false

/-! # `ls` (`ece391ls.c`)

The program reads the directory name by name and writes each name on a line of its own. It stops at an
empty name, as it does at the end of the directory: `ls_shows`. -/

namespace BaseOs

open Kernel Programs

/-- One round of the loop of `main`. -/
def lsRound (fd : Int32) (buf : Bytes) : Program (Bytes ⊕ Int32) := do
  let answer ← ece391Read fd buf 32
  let cnt := answer.ret
  if cnt = 0 then return .inr 0
  else if cnt = -1 then do
    ece391FdputsLit 1 (ascii "directory entry read failed\n")
    return .inr 3
  else do
    let buf := Function.update answer.buf cnt.toInt.toNat 10
    let written ← ece391Write 1 buf (cnt + 1)
    if written = -1 then return .inr 3 else return .inl buf

/-- `main`, with at most `fuel` rounds of the loop; `buf` is the former contents of the local array. -/
def lsMain (fuel : Nat) (buf : Bytes) : Program (Option Int32) := do
  let fd ← ece391Open (cstr (ascii "."))
  if fd = -1 then do
    ece391FdputsLit 1 (ascii "directory open failed\n")
    return some 2
  else Prog.iterate (lsRound fd) fuel buf

/-- A name on a line. -/
def lsLine (s : List UInt8) : List UInt8 := s ++ [10]

variable {cfg : Config} {m : Machine} {p : Slot} {i : FdIndex} {table : FdTable}

theorem toRet_add_one (n : Nat) : toRet n + 1 = toRet (n + 1) := by
  unfold toRet
  rw [UInt32.ofNat_add, UInt32.toInt32_add]
  rfl

/-- The buffer with a newline behind the name. -/
theorem firstBytes_lsLine (buf : Bytes) (s : List UInt8) :
    firstBytes (Function.update (store buf s) s.length 10) (s.length + 1) = lsLine s := by
  have hstored : firstBytes (Function.update (store buf s) s.length 10) s.length = s := by
    nth_rewrite 4 [← map_store_range buf s]
    rw [firstBytes]
    refine List.map_congr_left fun j hj => Function.update_of_ne ?_ _ _
    exact (List.mem_range.1 hj).ne
  rw [firstBytes_succ, hstored, Function.update_self, lsLine]

theorem lsRound_dir (hok : TableOk table) (hi : 2 ≤ i.val)
    (h : NamesWritten cfg p i table (fun s block => block = lsLine s) m) (buf : Bytes) :
    Prog.Ensures (Machine.serve cfg) (LeavesAlone p) (lsRound (toRet i.val) buf)
      (fun r m' => r.elim
        (fun _ => NamesWritten cfg p i table (fun s block => block = lsLine s) m' ∧
          namesLeft cfg p i m' < namesLeft cfg p i m)
        fun status => status = 0 ∧ output m'.log = cfg.fs.namesRead.flatMap lsLine) m := by
  refine Prog.ensures_bind.2 ((ensures_read_names h hok hi buf (n := 32) (by decide) (by decide)).mono ?_)
  rintro r m₁ (⟨hzero, hout⟩ | ⟨s, pos, out, -, rfl, hs, hlen, h₁, hnext⟩)
  · simp only [hzero, if_true]
    exact ⟨rfl, blockForEach_eq hout⟩
  · have hsmall : s.length + 1 < 2 ^ 31 := by
      unfold maxNameCharacters at hlen
      omega
    have hcnt : s.length < 2 ^ 31 := by omega
    have hzero : toRet s.length ≠ 0 := by
      rwa [Ne, toRet_eq_zero hcnt, List.length_eq_zero_iff]
    simp only [if_neg hzero, if_neg (toRet_ne_failed hcnt), toRet_add_one, toInt_toRet hcnt,
      Int.toNat_natCast]
    refine Prog.ensures_bind.2 ((ensures_write h₁ (hok.openDir hi pos) _ hsmall).mono ?_)
    rintro written m₂ ⟨rfl, h₂⟩
    rw [firstBytes_lsLine] at h₂
    rw [if_neg (toRet_ne_failed hsmall)]
    exact hnext m₂ _ rfl h₂

end BaseOs
