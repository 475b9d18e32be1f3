import Mathlib
import BaseOs.Rtc

set_option autoImplicit false

/-! # The rate of the clock

A rate `r` stands for `32768 >> (r - 1)` interrupts a second, and the table of `set_frequency` holds
`32768 >> i` at index `i`. The function counts the index up by one to get the rate, and register A gets
the right one (`setFrequency_register`). But the frequency it records is read at the rate and not at the
index: one entry too far, or past the end of the table (`rateSelected_never`). -/

namespace BaseOs

variable (memory : Nat → UInt32) (rtc : Rtc) (frequency : UInt32)

/-! ## What the function reads -/

/-- The search loop of `set_frequency` from index `i` on: where it stops, and the entries it reads. -/
def searchRate : Nat → Nat → Nat × List Nat
  | 0, i => (i, [])
  | fuel + 1, i =>
    if frequency = frequencies memory i then (i, [i])
    else ((searchRate fuel (i + 1)).1, i :: (searchRate fuel (i + 1)).2)

/-- The entries of `frequencies` that `set_frequency` reads: those of the search, and the one it
    records. -/
def tableReads : List Nat := (searchRate memory frequency numFreq 0).2 ++ [rateFor frequency]

/-- Recording the reads changes nothing: the search stops where `rateIndex` does. -/
theorem searchRate_fst : (searchRate memory frequency numFreq 0).1 = rateIndex frequency := by
  have hsearch : ∀ (l : List UInt32) (i : Nat),
      (∀ j (hj : j < l.length), frequencies memory (i + j) = l[j]) →
      (searchRate memory frequency l.length i).1 = i + l.findIdx (· == frequency) := by
    intro l
    induction l with
    | nil => exact fun i _ => rfl
    | cons a l ih =>
        intro i hl
        have hfirst : frequencies memory i = a := hl 0 (Nat.succ_pos _)
        have hrest := ih (i + 1) fun j hj => by
          rw [Nat.add_assoc, Nat.add_comm 1 j]
          exact hl (j + 1) (Nat.succ_lt_succ hj)
        rw [List.length_cons, searchRate, hfirst, List.findIdx_cons]
        by_cases ha : frequency = a
        · rw [if_pos ha, ha, beq_self_eq_true, cond_true, Nat.add_zero]
        · rw [if_neg ha, beq_false_of_ne (Ne.symm ha), cond_false]
          exact hrest.trans (by omega)
  have hall := hsearch frequencyList 0 fun j hj => by
    rw [Nat.zero_add, frequencies, List.getD_eq_getElem _ _ hj]
  rwa [Nat.zero_add] at hall

/-! ## The rate -/

/-- The table holds the powers of two from `2 ^ 15` down. -/
theorem frequencyList_get {i : Nat} (hi : i < numFreq) :
    (frequencies memory i).toNat = 2 ^ (15 - i) := by
  have hall : ∀ i : Fin 14, (frequencyList.getD i 0).toNat = 2 ^ (15 - i.val) := by decide
  have hlen : i < frequencyList.length := hi
  have hentry := hall ⟨i, hi⟩
  unfold frequencies
  rw [List.getD_eq_getElem _ _ hlen] at hentry ⊢
  exact hentry

/-- The search finds a power of two from `2 ^ 2` to `2 ^ 15`, and stops at the end for anything else. -/
theorem rateIndex_spec :
    (rateIndex frequency < numFreq ∧ frequency.toNat = 2 ^ (15 - rateIndex frequency)) ∨
      (rateIndex frequency = numFreq ∧ ∀ n, 2 ≤ n → n ≤ 15 → frequency.toNat ≠ 2 ^ n) := by
  have hentry : ∀ i (hi : i < frequencyList.length), frequencyList[i].toNat = 2 ^ (15 - i) := by
    intro i hi
    rw [← List.getD_eq_getElem _ 0 hi]
    exact frequencyList_get (fun _ => 0) hi
  rcases Nat.lt_or_ge (rateIndex frequency) numFreq with hlt | hge
  · have hin : rateIndex frequency < frequencyList.length := hlt
    have hfound : frequencyList[rateIndex frequency] = frequency :=
      beq_iff_eq.1 (List.findIdx_getElem (w := hin))
    refine Or.inl ⟨hlt, ?_⟩
    rw [← hentry _ hin, hfound]
  · have hle : rateIndex frequency ≤ numFreq := List.findIdx_le_length
    have hend : rateIndex frequency = frequencyList.length := le_antisymm hle hge
    refine Or.inr ⟨hend, fun n hlo hhi heq => ?_⟩
    have hn : 15 - n < frequencyList.length := by
      change 15 - n < 14
      omega
    have hne := List.findIdx_eq_length.1 hend _ (List.getElem_mem hn)
    have hpow := hentry (15 - n) hn
    rw [show 15 - (15 - n) = n by omega, ← heq] at hpow
    exact beq_eq_false_iff_ne.1 hne (UInt32.toNat_inj.1 hpow)

/-- The rate is one more than the index, within 6 and 15. -/
theorem rateFor_eq : rateFor frequency = max maxRate (min minRate (rateIndex frequency + 1)) := by
  unfold rateFor
  simp only
  split_ifs <;> omega

/-- The number of interrupts a rate stands for. -/
def rateFrequency (rate : Nat) : Nat := 32768 >>> (rate - 1)

theorem rateFrequency_eq {rate : Nat} (h1 : 1 ≤ rate) (h16 : rate ≤ 16) :
    rateFrequency rate = 2 ^ (16 - rate) := by
  unfold rateFrequency
  rw [Nat.shiftRight_eq_div_pow, show 32768 = 2 ^ 15 from rfl, Nat.pow_div (by omega) (by decide)]
  congr 1
  omega

/-- Register A, split into its halves after the write. -/
theorem regA_halves (a : UInt8) {rate : Nat} (hrate : rate < 16) :
    ((a &&& 0xF0) ||| UInt8.ofNat rate) &&& 0xF0 = a &&& 0xF0 ∧
      (((a &&& 0xF0) ||| UInt8.ofNat rate) &&& 0x0F).toNat = rate := by
  have hall : ∀ n : Fin 256, ∀ r : Fin 16,
      ((UInt8.ofNat n &&& 0xF0) ||| UInt8.ofNat r) &&& 0xF0 = UInt8.ofNat n &&& 0xF0 ∧
        (((UInt8.ofNat n &&& 0xF0) ||| UInt8.ofNat r) &&& 0x0F).toNat = r := by decide +kernel
  simpa using hall ⟨a.toNat, a.toNat_lt⟩ ⟨rate, hrate⟩

/-! ## What `set_frequency` leaves -/

/-- The rate in register A. -/
def selectedRate : Nat := ((setFrequency memory rtc frequency).regA &&& 0x0F).toNat

/-- Register A after the call: the upper half as before, and the rate of the frequency asked for. A
    higher power of two gets the highest frequency allowed, everything else the lowest. -/
structure RegisterRight : Prop where
  upper : (setFrequency memory rtc frequency).regA &&& 0xF0 = rtc.regA &&& 0xF0
  range : maxRate ≤ selectedRate memory rtc frequency ∧ selectedRate memory rtc frequency ≤ minRate
  listed : ∀ n, frequency.toNat = 2 ^ n → 2 ≤ frequency.toNat → frequency.toNat ≤ 1024 →
    rateFrequency (selectedRate memory rtc frequency) = frequency.toNat
  high : ∀ n, frequency.toNat = 2 ^ n → 2048 ≤ frequency.toNat → frequency.toNat ≤ 32768 →
    rateFrequency (selectedRate memory rtc frequency) = 1024
  others : (∀ n, frequency.toNat = 2 ^ n → ¬ (2 ≤ frequency.toNat ∧ frequency.toNat ≤ 32768)) →
    rateFrequency (selectedRate memory rtc frequency) = 2

/-- The rate is selected properly: the table is read inside its bounds, register A is right, and the
    frequency recorded is that of the rate. -/
structure RateSelected : Prop where
  inside : ∀ i ∈ tableReads memory frequency, i < numFreq
  register : RegisterRight memory rtc frequency
  recorded : (setFrequency memory rtc frequency).currFrequency.toNat
    = rateFrequency (selectedRate memory rtc frequency)

theorem rateFor_range : maxRate ≤ rateFor frequency ∧ rateFor frequency ≤ minRate := by
  rw [rateFor_eq]
  unfold maxRate minRate
  omega

theorem selectedRate_eq : selectedRate memory rtc frequency = rateFor frequency :=
  (regA_halves rtc.regA (Nat.lt_succ_of_le (rateFor_range frequency).2)).2

/-- The rate of a power of two the search finds. -/
theorem rateFor_pow {n : Nat} (hn : frequency.toNat = 2 ^ n) (hlo : 2 ≤ n) (hhi : n ≤ 15) :
    rateFor frequency = max maxRate (16 - n) := by
  rcases rateIndex_spec frequency with ⟨hlt, hpow⟩ | ⟨-, hnone⟩
  · have hexp : n = 15 - rateIndex frequency := Nat.pow_right_injective le_rfl (hn.symm.trans hpow)
    rw [rateFor_eq]
    unfold minRate
    omega
  · exact absurd hn (hnone n hlo hhi)

/-- The rate of everything else, also of 2. -/
theorem rateFor_other (hnone : ∀ n, 2 ≤ n → n ≤ 15 → frequency.toNat ≠ 2 ^ n) :
    rateFor frequency = minRate := by
  rcases rateIndex_spec frequency with ⟨hlt, hpow⟩ | ⟨hend, -⟩
  · unfold numFreq at hlt
    exact absurd hpow (hnone _ (by omega) (by omega))
  · rw [rateFor_eq, hend]
    decide

/-- Register A is right after every call. -/
theorem setFrequency_register : RegisterRight memory rtc frequency := by
  have hrange := rateFor_range frequency
  have hexp : ∀ {m n : Nat}, 2 ^ m ≤ 2 ^ n ↔ m ≤ n := Nat.pow_le_pow_iff_right (by decide)
  refine ⟨(regA_halves rtc.regA (Nat.lt_succ_of_le hrange.2)).1, ?_, ?_, ?_, ?_⟩
  all_goals rw [selectedRate_eq]
  · exact hrange
  · intro n hn hlo hhi
    have hn1 : 1 ≤ n := hexp.1 (by rwa [hn] at hlo)
    have hn10 : n ≤ 10 := hexp.1 (by rwa [hn] at hhi)
    rw [hn]
    rcases Nat.eq_or_lt_of_le hn1 with rfl | hn2
    · rw [rateFor_other frequency fun m hm _ hpow => by
        have := hexp.1 (hpow.symm.trans hn).le
        omega]
      rfl
    · rw [rateFor_pow frequency hn hn2 (by omega), max_eq_right (show maxRate ≤ 16 - n by
        unfold maxRate
        omega), rateFrequency_eq (by omega) (by omega)]
      congr 1
      omega
  · intro n hn hlo hhi
    have hn11 : 11 ≤ n := hexp.1 (by rwa [hn] at hlo)
    have hn15 : n ≤ 15 := hexp.1 (by rwa [hn] at hhi)
    rw [rateFor_pow frequency hn (by omega) hn15, max_eq_left (show 16 - n ≤ maxRate by
      unfold maxRate
      omega)]
    rfl
  · intro hother
    rw [rateFor_other frequency fun n hlo hhi hn => hother n hn ?_]
    · rfl
    · rw [hn]
      exact ⟨hexp.2 (show 1 ≤ n by omega), hexp.2 hhi⟩

/-- The rate is never selected properly. For the two lowest rates the frequency is read past the end of
    the table, and for every other one it is half of what the rate stands for. -/
theorem rateSelected_never : ¬ RateSelected memory rtc frequency := by
  rintro ⟨hinside, -, hrecorded⟩
  have hlt : rateFor frequency < numFreq :=
    hinside _ (List.mem_append_right _ (List.mem_singleton_self _))
  have hlo := (rateFor_range frequency).1
  have hhi := (rateFor_range frequency).2
  unfold maxRate at hlo
  unfold minRate at hhi
  rw [selectedRate_eq, rateFrequency_eq (by omega) (by omega)] at hrecorded
  have hread : (setFrequency memory rtc frequency).currFrequency.toNat = 2 ^ (15 - rateFor frequency) :=
    frequencyList_get memory hlt
  have hexp : 15 - rateFor frequency = 16 - rateFor frequency :=
    Nat.pow_right_injective le_rfl (hread.symm.trans hrecorded)
  omega

/-- Asked for 1024, it sets rate 6 and records 512. -/
theorem rateSelected_not_right :
    ¬ ∀ (memory : Nat → UInt32) (rtc : Rtc) (frequency : UInt32),
      RateSelected memory rtc frequency := by
  intro hall
  have hrecorded := (hall (fun _ => 0) ⟨false, 15, 0, 0x2F⟩ 1024).recorded
  revert hrecorded
  decide

end BaseOs
