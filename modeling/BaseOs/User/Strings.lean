import BaseOs.Lib.Terminated
import BaseOs.Str

set_option autoImplicit false

/-! # The string functions of the programs (`ece391support.c`) -/

namespace BaseOs

open Terminated

/-! ## `ece391_strncmp` -/

/-- The comparison from index `i` on, with `n` bytes to go. -/
def ece391StrncmpFrom (s1 s2 : Bytes) : Nat → Nat → Int
  | _, 0 => 0
  | i, n + 1 =>
    if s1 i = s2 i then if s1 i = 0 ∨ n = 0 then 0 else ece391StrncmpFrom s1 s2 (i + 1) n
    else ((s1 i).toNat : Int) - (s2 i).toNat

def ece391Strncmp (s1 s2 : Bytes) (n : Nat) : Int := ece391StrncmpFrom s1 s2 0 n

/-- The programs and the kernel agree on what is equal, though not on what is less. -/
theorem ece391StrncmpFrom_eq_zero (s1 s2 : Bytes) (i n : Nat) :
    ece391StrncmpFrom s1 s2 i n = 0 ↔ strncmpFrom s1 s2 i n = 0 := by
  induction n generalizing i with
  | zero => exact Iff.rfl
  | succ n ih =>
      rw [ece391StrncmpFrom, strncmpFrom]
      by_cases heq : s1 i = s2 i
      · rw [if_pos heq]
        by_cases hend : s1 i = 0
        · rw [if_pos (Or.inl hend), if_pos (Or.inr hend), heq, sub_self]
        · have hgoes : ¬ (s1 i ≠ s2 i ∨ s1 i = 0) := fun h => h.elim (fun hne => hne heq) hend
          rw [if_neg hgoes]
          by_cases hn : n = 0
          · rw [if_pos (Or.inr hn), hn, strncmpFrom]
          · rw [if_neg (by simp [hend, hn]), ih]
      · rw [if_neg heq, if_pos (Or.inl heq)]
        have hne : ((s1 i).toNat : Int) - (s2 i).toNat ≠ 0 := by
          intro hz
          exact heq (UInt8.toNat_inj.1 (by omega))
        have hne' : (s1 i).toInt8.toInt - (s2 i).toInt8.toInt ≠ 0 := by
          intro hz
          have hint := Int8.toInt_inj.1 (sub_eq_zero.1 hz)
          exact heq (by simpa using congrArg Int8.toUInt8 hint)
        exact iff_of_false hne hne'

/-- Is a text without NULs at the start of a buffer? -/
theorem ece391Strncmp_prefix {buf s2 : Bytes} {pat line : List UInt8} (hline : Spells buf line)
    (hpat : Spells s2 pat) : ece391Strncmp buf s2 pat.length = 0 ↔ pat <+: line := by
  rw [ece391Strncmp, ece391StrncmpFrom_eq_zero, ← strncmp,
    strncmp_eq_zero_of_right_ne fun i hi => hpat.ne_zero hi]
  constructor
  · intro hall
    have hlen : pat.length ≤ line.length := by
      by_contra hlt
      have hend := hall line.length (by omega)
      rw [hline.zero] at hend
      exact hpat.ne_zero (show line.length < pat.length by omega) hend.symm
    rw [List.prefix_iff_eq_take]
    refine List.ext_getElem (by rw [List.length_take]; omega) fun i hi hi' => ?_
    rw [List.getElem_take, ← hpat.getElem hi, ← hall i hi, hline.getElem (by omega)]
  · rintro hpre i hi
    rw [hline.getElem (hi.trans_le hpre.length_le), hpat.getElem hi, hpre.getElem hi]

/-! ## `ece391_strcmp` -/

/-- The comparison from index `i` on, of strings one of which ends within `bound` bytes from there. -/
def ece391StrcmpFrom (s1 s2 : Bytes) : Nat → Nat → Int
  | i, 0 => ((s1 i).toNat : Int) - (s2 i).toNat
  | i, bound + 1 =>
    if s1 i = s2 i then if s1 i = 0 then 0 else ece391StrcmpFrom s1 s2 (i + 1) bound
    else ((s1 i).toNat : Int) - (s2 i).toNat

def ece391Strcmp (s1 s2 : Bytes) (bound : Nat) : Int := ece391StrcmpFrom s1 s2 0 bound

theorem ece391StrcmpFrom_eq_zero {s1 s2 : Bytes} {l1 l2 : List UInt8} {i bound : Nat}
    (h1 : Spells (fun j => s1 (i + j)) l1) (h2 : Spells (fun j => s2 (i + j)) l2) (hbound : l2.length < bound) :
    ece391StrcmpFrom s1 s2 i bound = 0 ↔ l1 = l2 := by
  induction l2 generalizing i bound l1 with
  | nil =>
      obtain ⟨bound, rfl⟩ := Nat.exists_eq_add_of_lt hbound
      have hend : s2 i = 0 := h2.zero
      simp only [List.length_nil, Nat.zero_add, ece391StrcmpFrom, hend]
      cases l1 with
      | nil =>
          have hend1 : s1 i = 0 := h1.zero
          simp [hend1]
      | cons c l1 =>
          obtain ⟨⟨hc, hne⟩, -⟩ := spells_cons.1 h1
          rw [if_neg (by rwa [hc])]
          refine iff_of_false (fun hz => hne ?_) (by simp)
          rw [← hc]
          exact UInt8.toNat_inj.1 (by simpa using hz)
  | cons d l2 ih =>
      obtain ⟨bound, rfl⟩ : ∃ b, bound = b + 1 := ⟨bound - 1, by omega⟩
      rw [List.length_cons] at hbound
      obtain ⟨⟨hd, hdne⟩, hrest⟩ := spells_cons.1 h2
      rw [ece391StrcmpFrom]
      -- the comparison goes on behind equal bytes
      by_cases heq : s1 i = s2 i
      · rw [if_pos heq, if_neg (by rwa [heq, hd])]
        cases l1 with
        | nil =>
            have hend1 : s1 i = 0 := h1.zero
            exact absurd (hd.symm.trans (heq.symm.trans hend1)) hdne
        | cons c l1 =>
            obtain ⟨⟨hc, -⟩, hrest1⟩ := spells_cons.1 h1
            rw [ih hrest1 hrest (by omega), List.cons.injEq]
            exact (and_iff_right (hc.symm.trans (heq.trans hd))).symm
      · rw [if_neg heq]
        refine iff_of_false (fun hz => heq (UInt8.toNat_inj.1 (by omega))) ?_
        rintro rfl
        obtain ⟨⟨hc, -⟩, -⟩ := spells_cons.1 h1
        exact heq (hc.trans hd.symm)

/-- Strings that end are equal exactly if the comparison says so. -/
theorem ece391Strcmp_eq_zero {s1 s2 : Bytes} {l1 l2 : List UInt8} {bound : Nat} (h1 : Spells s1 l1)
    (h2 : Spells s2 l2) (hbound : l2.length < bound) : ece391Strcmp s1 s2 bound = 0 ↔ l1 = l2 :=
  ece391StrcmpFrom_eq_zero (by simpa using h1) (by simpa using h2) hbound

/-! ## `ece391_strcpy` -/

/-- `ece391_strcpy` inside one array, of a string that ends within `bound` bytes. Each byte is read from what
    the array holds by then. -/
def ece391Strcpy : Nat → Bytes → Nat → Nat → Bytes
  | 0, mem, _, _ => mem
  | bound + 1, mem, dst, src =>
    let c := mem src
    let mem := Function.update mem dst c
    if c = 0 then mem else ece391Strcpy bound mem (dst + 1) (src + 1)

/-- Copied downwards, a string arrives whole and nothing else changes. -/
theorem ece391Strcpy_down {bound dst src : Nat} {mem : Bytes} {s : List UInt8} (hdown : dst < src)
    (hs : Spells (fun i => mem (src + i)) s) (hbound : s.length < bound) :
    Spells (fun i => ece391Strcpy bound mem dst src (dst + i)) s ∧
      ∀ j, j < dst ∨ dst + s.length < j → ece391Strcpy bound mem dst src j = mem j := by
  induction s generalizing bound dst src mem with
  | nil =>
      obtain ⟨bound, rfl⟩ := Nat.exists_eq_add_of_lt hbound
      have hend : mem src = 0 := hs.zero
      simp only [List.length_nil, Nat.zero_add, ece391Strcpy, hend, if_true]
      refine ⟨⟨fun i hi => ?_, by simp⟩, fun j hj => Function.update_of_ne (by omega) _ _⟩
      obtain rfl : i = 0 := Nat.le_zero.1 hi
      exact Function.update_self ..
  | cons c s ih =>
      obtain ⟨bound, rfl⟩ : ∃ b, bound = b + 1 := ⟨bound - 1, by omega⟩
      rw [List.length_cons] at hbound
      obtain ⟨⟨hc, hne⟩, hrest⟩ := spells_cons.1 hs
      have hrest' : Spells (fun i => Function.update mem dst c (src + 1 + i)) s :=
        hrest.congr fun i _ => Function.update_of_ne (by omega) _ _
      have hshort : s.length < bound := by omega
      obtain ⟨hcopied, hother⟩ := ih (show dst + 1 < src + 1 by omega) hrest' hshort
      simp only [ece391Strcpy, hc, if_neg hne]
      refine ⟨spells_cons.2 ⟨⟨?_, hne⟩, hcopied⟩, fun j hj => ?_⟩
      · rw [hother dst (by omega), Function.update_self]
      · rw [List.length_cons] at hj
        rw [hother j (by omega), Function.update_of_ne (by omega)]

end BaseOs
