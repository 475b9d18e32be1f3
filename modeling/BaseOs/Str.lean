import BaseOs.Lib.Scan

set_option autoImplicit false

/-! # Byte strings (`lib.c`)

A pointer to bytes is the function from offsets to the bytes it addresses; a C string is read up to
its first zero byte. Reads past the end of an array are reads of such a function too: they return
whatever the memory holds there. -/

namespace BaseOs

/-- The memory behind a byte pointer, by offset. -/
abbrev Bytes := Nat → UInt8

/-- The NUL-terminated string with these characters. -/
def cstr (s : List UInt8) : Bytes := fun i => s.getD i 0

/-- The bytes of a string literal. -/
def ascii (s : String) : List UInt8 := s.toList.map fun c => c.toNat.toUInt8

/-- `buf` after `data` has been stored at its start. -/
def store (buf : Bytes) (data : List UInt8) : Bytes := fun i => data.getD i (buf i)

theorem store_of_lt {buf : Bytes} {data : List UInt8} {i : Nat} (h : i < data.length) :
    store buf data i = data[i] := by
  simp [store, h]

/-- Reading back as many bytes as were stored gives the stored bytes. -/
theorem map_store_range (buf : Bytes) (data : List UInt8) :
    (List.range data.length).map (store buf data) = data := by
  apply List.ext_getElem
  · simp
  · intro i h1 h2
    simp only [List.getElem_map, List.getElem_range]
    exact store_of_lt h2

/-! ## `strncmp`, `strncpy`, `strcpy` -/

/-- The comparison loop of `strncmp`, from index `i` on with `n` bytes to go. -/
def strncmpFrom (s1 s2 : Bytes) : Nat → Nat → Int
  | _, 0 => 0
  | i, n + 1 =>
    if s1 i ≠ s2 i ∨ s1 i = 0 then (s1 i).toInt8.toInt - (s2 i).toInt8.toInt
    else strncmpFrom s1 s2 (i + 1) n

def strncmp (s1 s2 : Bytes) (n : Nat) : Int := strncmpFrom s1 s2 0 n

/-- `strncpy`: copy up to the first NUL or `n` bytes, fill the rest of the `n` bytes with NULs. -/
def strncpy (dest src : Bytes) (n : Nat) : Bytes :=
  let len := Scan.scan (fun i => src i != 0) 0 n
  fun i => if i < len then src i else if i < n then 0 else dest i

/-- `strcpy` from a source whose terminator lies inside `bound` bytes. -/
def strcpy (dest src : Bytes) (bound : Nat) : Bytes :=
  let len := Scan.scan (fun i => src i != 0) 0 bound
  fun i => if i < len then src i else if i = len then 0 else dest i

theorem strncmpFrom_eq_zero (s1 s2 : Bytes) (i n : Nat) :
    strncmpFrom s1 s2 i n = 0 ↔
      ∀ j, i ≤ j → j < i + n → (∀ m, i ≤ m → m < j → s1 m ≠ 0) → s1 j = s2 j := by
  induction n generalizing i with
  | zero =>
      simp only [strncmpFrom, true_iff]
      intro j hij hj
      omega
  | succ n ih =>
      rw [strncmpFrom]
      split_ifs with hstop
      · constructor
        · -- stopping with difference 0 means both strings ended here
          intro hz
          have heq : s1 i = s2 i := by
            have := Int8.toInt_inj.1 (sub_eq_zero.1 hz)
            simpa using congrArg Int8.toUInt8 this
          have hnul : s1 i = 0 := hstop.resolve_left (fun hne => hne heq)
          intro j hij hj hbefore
          rcases Nat.eq_or_lt_of_le hij with rfl | hlt
          · exact heq
          · exact absurd hnul (hbefore i (le_refl _) hlt)
        · intro hall
          rw [hall i (le_refl _) (by omega) (fun m h1 h2 => by omega), sub_self]
      · push Not at hstop
        obtain ⟨heq, hne⟩ := hstop
        rw [ih (i + 1)]
        constructor
        · intro hall j hij hj hbefore
          rcases Nat.eq_or_lt_of_le hij with rfl | hlt
          · exact heq
          · exact hall j hlt (by omega) fun m h1 h2 => hbefore m (by omega) h2
        · intro hall j hij hj hbefore
          refine hall j (by omega) (by omega) fun m h1 h2 => ?_
          rcases Nat.eq_or_lt_of_le h1 with rfl | hlt
          · exact hne
          · exact hbefore m hlt h2

/-- For a first string without a NUL among its first `n` bytes, `strncmp` is equality of the first
    `n` bytes. -/
theorem strncmp_eq_zero_of_ne {s1 s2 : Bytes} {n : Nat} (h : ∀ i < n, s1 i ≠ 0) :
    strncmp s1 s2 n = 0 ↔ ∀ i < n, s1 i = s2 i := by
  rw [strncmp, strncmpFrom_eq_zero]
  constructor
  · intro hall i hi
    exact hall i (Nat.zero_le _) (by omega) fun m _ hm => h m (by omega)
  · intro hall j _ hj _
    exact hall j (by omega)

/-- The same for a second string without a NUL: the comparison cannot stop early. -/
theorem strncmp_eq_zero_of_right_ne {s1 s2 : Bytes} {n : Nat} (h : ∀ i < n, s2 i ≠ 0) :
    strncmp s1 s2 n = 0 ↔ ∀ i < n, s1 i = s2 i := by
  constructor
  · rw [strncmp, strncmpFrom_eq_zero]
    intro hall i hi
    induction i using Nat.strong_induction_on with
    | _ i ih =>
        refine hall i (Nat.zero_le _) (by omega) fun m _ hm => ?_
        rw [ih m hm (by omega)]
        exact h m (by omega)
  · intro hall
    exact (strncmp_eq_zero_of_ne fun i hi => by rw [hall i hi]; exact h i hi).2 hall

end BaseOs
