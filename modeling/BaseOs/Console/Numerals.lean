import BaseOs.Console
import BaseOs.Lib.Stores
import BaseOs.Lib.Terminated

set_option autoImplicit false

/-! # Numerals (`itoa`, `strrev`, `strlen`)

`itoa` divides the value down and stores a digit a round, lowest place first, then a NUL, and has
`strrev` turn the string round in place. The routines are described by the stores they make, from the
pointer they are given on. The digits are those of Mathlib (`Nat.digits`), so the string is the numeral of
the value and nothing else (`itoa_canonical`), and `itoa` of the console model is its text. -/

namespace BaseOs

open Stores Terminated

/-! ## The routines -/

/-- The division loop of `itoa`: its stores, and where `newbuf` is at the end. -/
def digitStores (radix : UInt32) : Nat → UInt32 → Nat → Option (List (Store UInt8) × Nat)
  | 0, _, _ => none
  | fuel + 1, newval, newbuf =>
    if newval > 0 then
      (digitStores radix fuel (newval / radix) (newbuf + 1)).map fun r =>
        (⟨newbuf, digitChar (newval % radix).toNat⟩ :: r.1, r.2)
    else some ([], newbuf)

/-- `strlen`, with `len` characters counted. -/
def strlenFrom : Nat → Bytes → Nat → Option Nat
  | 0, _, _ => none
  | fuel + 1, s, len => if s len ≠ 0 then strlenFrom fuel s (len + 1) else some len

/-- The stores of `strrev`. An empty string has no exchange to make, so the last index may be taken as 0
    instead of -1. -/
def strrevStores (fuel : Nat) (s : Bytes) : Option (List (Store UInt8)) :=
  (strlenFrom fuel s 0).bind fun len => swapEnds fuel s 0 (len - 1)

/-- The stores of `itoa`, with at most `fuel` tests in each loop. -/
def itoaStores (fuel : Nat) (value : UInt32) (buf : Bytes) (radix : UInt32) :
    Option (List (Store UInt8)) :=
  if value = 0 then some [⟨0, 48⟩, ⟨1, 0⟩]
  else
    (digitStores radix fuel value 0).bind fun r =>
      let stores := r.1 ++ [⟨r.2, 0⟩]
      (strrevStores fuel (apply buf stores)).map (stores ++ ·)

/-! ## The numeral -/

/-- What a digit stands for. -/
def digitValue (c : UInt8) : Nat := (ascii "0123456789ABCDEFGHIJKLMNOPQRSTUVWXYZ").idxOf c

/-- The numeral of a value: its digits, highest first, and `0` for zero. -/
def numeral (radix value : Nat) : List UInt8 :=
  if value = 0 then [48] else ((Nat.digits radix value).map digitChar).reverse

/-- A text is the canonical numeral of a value. -/
structure Canonical (radix value : Nat) (text : List UInt8) : Prop where
  digits : ∀ c ∈ text, ∃ d < radix, c = digitChar d
  leading : text.head? = some 48 → text = [48]
  value_eq : Nat.ofDigits radix (text.map digitValue).reverse = value

variable {radix value d : Nat}

theorem digitValue_digitChar (h : d < 36) : digitValue (digitChar d) = d := by
  have hall : ∀ d : Fin 36, digitValue (digitChar d.val) = d.val := by decide
  exact hall ⟨d, h⟩

theorem digitChar_ne_zero (h : d < 36) : digitChar d ≠ 0 := by
  have hall : ∀ d : Fin 36, digitChar d.val ≠ 0 := by decide
  exact hall ⟨d, h⟩

theorem digitChar_eq_zero_digit (h : d < 36) : digitChar d = 48 ↔ d = 0 := by
  have hall : ∀ d : Fin 36, digitChar d.val = 48 ↔ d.val = 0 := by decide
  exact hall ⟨d, h⟩

theorem numeral_canonical (hlo : 2 ≤ radix) (hhi : radix ≤ 36) :
    Canonical radix value (numeral radix value) := by
  unfold numeral
  split_ifs with hzero
  · refine ⟨fun c hc => ⟨0, by omega, List.mem_singleton.1 hc⟩, fun _ => rfl, ?_⟩
    rw [hzero]
    rfl
  · have hlt : ∀ d ∈ Nat.digits radix value, d < 36 := fun d hd =>
      (Nat.digits_lt_base hlo hd).trans_le hhi
    constructor
    · intro c hc
      obtain ⟨d, hd, rfl⟩ := List.mem_map.1 (List.mem_reverse.1 hc)
      exact ⟨d, Nat.digits_lt_base hlo hd, rfl⟩
    · -- the first character is the highest digit, which is not zero
      intro hhead
      have hne : Nat.digits radix value ≠ [] := Nat.digits_ne_nil_iff_ne_zero.2 hzero
      rw [List.head?_reverse, List.getLast?_map, List.getLast?_eq_getLast_of_ne_nil hne, Option.map_some,
        Option.some.injEq, digitChar_eq_zero_digit (hlt _ (List.getLast_mem hne))] at hhead
      exact absurd hhead (Nat.getLast_digit_ne_zero radix hzero)
    · rw [List.map_reverse, List.reverse_reverse, List.map_map]
      have hid : (Nat.digits radix value).map (digitValue ∘ digitChar) = Nat.digits radix value := by
        refine (List.map_congr_left fun d hd => ?_).trans (List.map_id _)
        exact digitValue_digitChar (hlt d hd)
      rw [hid, Nat.ofDigits_digits]

/-- A 32-bit value has at most 32 digits. -/
theorem length_digits_le (hlo : 2 ≤ radix) (value : UInt32) :
    (Nat.digits radix value.toNat).length ≤ 32 := by
  rw [Nat.digits_length_le_iff (by omega)]
  exact value.toNat_lt.trans_le (Nat.pow_le_pow_left hlo 32)

/-! ## What the routines leave -/

/-- The characters of the digits, lowest place first. -/
def lowFirst (radix value : Nat) : List UInt8 := (Nat.digits radix value).map digitChar

theorem lowFirst_of_pos (hlo : 2 ≤ radix) (hpos : 0 < value) :
    lowFirst radix value = digitChar (value % radix) :: lowFirst radix (value / radix) := by
  unfold lowFirst
  rw [Nat.digits_def' (by omega) hpos, List.map_cons]

theorem digitStores_eq {r : UInt32} (hlo : 2 ≤ r.toNat) {fuel : Nat} (newval : UInt32)
    (hfuel : (lowFirst r.toNat newval.toNat).length ≤ fuel) (newbuf : Nat) :
    digitStores r (fuel + 1) newval newbuf
      = some (copy newbuf (fun j => (lowFirst r.toNat newval.toNat).getD j 0)
          (lowFirst r.toNat newval.toNat).length,
        newbuf + (lowFirst r.toNat newval.toNat).length) := by
  induction fuel generalizing newval newbuf with
  | zero =>
      have hzero : newval.toNat = 0 := by
        by_contra hne
        rw [lowFirst_of_pos hlo (Nat.pos_of_ne_zero hne), List.length_cons] at hfuel
        omega
      rw [digitStores, if_neg (by rw [gt_iff_lt, UInt32.lt_iff_toNat_lt, hzero]; decide), hzero]
      simp [lowFirst, copy]
  | succ fuel ih =>
      rw [digitStores]
      split_ifs with hpos
      · rw [gt_iff_lt, UInt32.lt_iff_toNat_lt] at hpos
        have hcons := lowFirst_of_pos hlo hpos
        have hdiv : (newval / r).toNat = newval.toNat / r.toNat := UInt32.toNat_div _ _
        have hmod : (newval % r).toNat = newval.toNat % r.toNat := UInt32.toNat_mod _ _
        rw [hcons, List.length_cons] at hfuel
        rw [ih (newval / r) (by rw [hdiv]; omega), Option.map_some, hdiv, hmod, hcons, List.length_cons]
        refine congrArg some (Prod.ext ?_ ?_)
        · unfold copy
          rw [List.range_succ_eq_map, List.map_cons, List.map_map]
          refine congrArg₂ List.cons rfl (List.map_congr_left fun j _ => ?_)
          simp only [Function.comp_apply, Store.mk.injEq, List.getD_cons_succ, and_true]
          omega
        · simp only
          omega
      · have hzero : newval.toNat = 0 := by
          rw [gt_iff_lt, UInt32.lt_iff_toNat_lt] at hpos
          simpa using hpos
        rw [hzero]
        simp [lowFirst, copy]

theorem strlenFrom_eq {fuel len : Nat} {s : Bytes} {text : List UInt8} (h : Spells s text)
    (hlen : len ≤ text.length) (hfuel : text.length ≤ len + fuel) :
    strlenFrom (fuel + 1) s len = some text.length := by
  induction fuel generalizing len with
  | zero =>
      obtain rfl : len = text.length := by omega
      rw [strlenFrom, if_neg (by rw [h.zero]; decide)]
  | succ fuel ih =>
      rw [strlenFrom]
      split_ifs with hchar
      · have hne : len ≠ text.length := by
          rintro rfl
          exact hchar h.zero
        exact ih (by omega) (by omega)
      · have hend : ¬ len < text.length := fun hlt => hchar (h.ne_zero hlt)
        obtain rfl : len = text.length := by omega
        rfl

/-- `strrev` turns the string round. -/
theorem strrevStores_eq {fuel : Nat} {s : Bytes} {text : List UInt8} (h : Spells s text)
    (hfuel : text.length ≤ fuel) :
    ∃ stores, strrevStores (fuel + 1) s = some stores ∧ Within (text.length + 1) stores ∧
      Spells (apply s stores) text.reverse := by
  obtain ⟨stores, hstores, hwithin, hget⟩ := @swapEnds_spec UInt8 fuel 0 (text.length - 1) (by omega) s
  refine ⟨stores, ?_, fun w hw => (hwithin w hw).trans_le (by omega), fun i hi => ?_, fun c hc => ?_⟩
  · rw [strrevStores, strlenFrom_eq h (Nat.zero_le _) (by omega), Option.bind_some, hstores]
  · rw [List.length_reverse] at hi
    rw [hget]
    rcases Nat.eq_or_lt_of_le hi with rfl | hlt
    · rw [List.getD_eq_default _ _ (by simp)]
      split_ifs with hin
      · -- the string is empty
        rw [show 0 + (text.length - 1) - text.length = text.length by omega, h.zero]
      · exact h.zero
    · rw [if_pos (by omega), h.getElem (by omega), List.getD_eq_getElem _ _ (by simpa using hlt),
        List.getElem_reverse]
      congr 1
      omega
  · exact h.nonzero c (List.mem_reverse.1 hc)

/-- The loop and its NUL leave the digits as a string, lowest place first. -/
theorem digits_spelled (hlo : 2 ≤ radix) (hhi : radix ≤ 36) (buf : Bytes) :
    Spells (apply buf (copy 0 (fun j => (lowFirst radix value).getD j 0) (lowFirst radix value).length
      ++ [⟨(lowFirst radix value).length, 0⟩])) (lowFirst radix value) where
  get i hi := by
    rw [apply_append, apply_cons, apply_nil]
    rcases Nat.eq_or_lt_of_le hi with rfl | hlt
    · rw [Function.update_self, List.getD_eq_default _ _ le_rfl]
    · rw [Function.update_of_ne hlt.ne, apply_copy, if_pos (by omega), Nat.sub_zero]
  nonzero c hc := by
    obtain ⟨d, hd, rfl⟩ := List.mem_map.1 hc
    exact digitChar_ne_zero ((Nat.digits_lt_base hlo hd).trans_le hhi)

/-- `itoa` leaves the numeral of the value, and stays in the first 33 bytes. -/
theorem itoaStores_eq {r : UInt32} (hlo : 2 ≤ r.toNat) (hhi : r.toNat ≤ 36) (fuel : Nat) (value : UInt32)
    (buf : Bytes) :
    ∃ stores, itoaStores (fuel + 33) value buf r = some stores ∧ Within 33 stores ∧
      Spells (apply buf stores) (numeral r.toNat value.toNat) := by
  unfold itoaStores numeral
  by_cases hzero : value = 0
  · subst hzero
    rw [if_pos rfl, if_pos UInt32.toNat_zero]
    refine ⟨_, rfl, ?_, fun i hi => ?_, by simp⟩
    · exact within_cons.2 ⟨by decide, within_cons.2 ⟨by decide, within_nil⟩⟩
    · rw [List.length_singleton] at hi
      obtain rfl | rfl : i = 0 ∨ i = 1 := by omega
      · rfl
      · rfl
  · have hne : value.toNat ≠ 0 := fun h => hzero (UInt32.toNat_inj.1 (h.trans UInt32.toNat_zero.symm))
    have hlen : (lowFirst r.toNat value.toNat).length ≤ 32 := by
      rw [lowFirst, List.length_map]
      exact length_digits_le hlo value
    rw [if_neg hzero, if_neg hne, digitStores_eq hlo value (by omega), Option.bind_some]
    simp only [Nat.zero_add]
    obtain ⟨stores, hstores, hwithin, hspells⟩ := strrevStores_eq
      (@digits_spelled r.toNat value.toNat hlo hhi buf) (show _ ≤ fuel + 32 by omega)
    refine ⟨_, by rw [hstores, Option.map_some], ?_, ?_⟩
    · have hdigits : Within 33 (copy 0 (fun j => (lowFirst r.toNat value.toNat).getD j 0)
          (lowFirst r.toNat value.toNat).length) := within_copy (by omega)
      have hnul : Within 33 [(⟨(lowFirst r.toNat value.toNat).length, 0⟩ : Store UInt8)] :=
        within_cons.2 ⟨Nat.lt_succ_of_le hlen, within_nil⟩
      refine within_append.2 ⟨within_append.2 ⟨hdigits, hnul⟩, fun w hw => ?_⟩
      exact (hwithin w hw).trans_le (by omega)
    · rw [apply_append]
      exact hspells

/-- For every radix from 2 to 36, `itoa` leaves the canonical numeral of the value in the first 33 bytes of
    the buffer, and different values leave different strings. -/
theorem itoa_canonical {radix : UInt32} (hlo : 2 ≤ radix) (hhi : radix ≤ 36) (fuel : Nat) :
    (∀ (value : UInt32) (buf : Bytes), ∃ stores text,
      itoaStores (fuel + 33) value buf radix = some stores ∧ Within 33 stores ∧
        Spells (apply buf stores) text ∧ Canonical radix.toNat value.toNat text) ∧
    ∀ (value value' : UInt32) (buf buf' : Bytes) (stores stores' : List (Store UInt8)) (text : List UInt8),
      itoaStores (fuel + 33) value buf radix = some stores →
      itoaStores (fuel + 33) value' buf' radix = some stores' →
      Spells (apply buf stores) text → Spells (apply buf' stores') text → value = value' := by
  have hlo' : 2 ≤ radix.toNat := hlo
  have hhi' : radix.toNat ≤ 36 := hhi
  constructor
  · intro value buf
    obtain ⟨stores, hstores, hwithin, hspells⟩ := itoaStores_eq hlo' hhi' fuel value buf
    exact ⟨stores, _, hstores, hwithin, hspells, numeral_canonical hlo' hhi'⟩
  · intro value value' buf buf' stores stores' text hstores hstores' hspells hspells'
    obtain ⟨_, hitoa, -, hnumeral⟩ := itoaStores_eq hlo' hhi' fuel value buf
    obtain ⟨_, hitoa', -, hnumeral'⟩ := itoaStores_eq hlo' hhi' fuel value' buf'
    obtain rfl := Option.some.inj (hitoa.symm.trans hstores)
    obtain rfl := Option.some.inj (hitoa'.symm.trans hstores')
    have heq : numeral radix.toNat value.toNat = numeral radix.toNat value'.toNat :=
      (hnumeral.unique hspells).trans (hspells'.unique hnumeral')
    have hvalue := (@numeral_canonical radix.toNat value.toNat hlo' hhi').value_eq
    rw [heq, (@numeral_canonical radix.toNat value'.toNat hlo' hhi').value_eq] at hvalue
    exact UInt32.toNat_inj.1 hvalue.symm

/-- `FF` for 255 in radix 16. -/
theorem itoa_canonical_hex : ∃ stores text, itoaStores 33 255 (fun _ => 0) 16 = some stores ∧
    Within 33 stores ∧ Spells (apply (fun _ => 0) stores) text ∧ Canonical 16 255 text :=
  (itoa_canonical (by decide) (by decide) 0).1 255 fun _ => 0

/-! ## The text of the console model -/

theorem itoaDigits_eq (hlo : 2 ≤ radix) {fuel newval : Nat}
    (hfuel : (Nat.digits radix newval).length ≤ fuel) :
    itoaDigits radix fuel newval = lowFirst radix newval := by
  induction fuel generalizing newval with
  | zero =>
      have hnil : Nat.digits radix newval = [] := List.eq_nil_of_length_eq_zero (by omega)
      rw [itoaDigits, lowFirst, hnil, List.map_nil]
  | succ fuel ih =>
      rw [itoaDigits]
      split_ifs with hpos
      · rw [Nat.digits_def' (by omega) hpos, List.length_cons] at hfuel
        rw [ih (by omega), lowFirst_of_pos hlo hpos]
      · obtain rfl : newval = 0 := by omega
        simp [lowFirst]

/-- `itoa` of the console model is the text that `itoa` leaves. -/
theorem itoa_eq_numeral (hlo : 2 ≤ radix) (value : UInt32) :
    itoa value radix = numeral radix value.toNat := by
  unfold itoa numeral
  by_cases hzero : value = 0
  · subst hzero
    rfl
  · have hne : value.toNat ≠ 0 := fun h => hzero (UInt32.toNat_inj.1 (h.trans UInt32.toNat_zero.symm))
    rw [if_neg hzero, if_neg hne, itoaDigits_eq hlo (length_digits_le hlo value)]
    rfl

end BaseOs
