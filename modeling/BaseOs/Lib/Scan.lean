import Mathlib

set_option autoImplicit false

/-! # Bounded scans

The loop `while (p(i) && i < bound) i++`, which measures a name or skips a run of characters. It is
characterised by what it passed and where it stopped (`scan_spec`, `scan_eq_of`); nothing else about
it is needed. -/

namespace Scan

/-- `while (p i && i < i + fuel) i++`: the index at which the scan stops. -/
def scan (p : Nat → Bool) : Nat → Nat → Nat
  | i, 0 => i
  | i, fuel + 1 => if p i then scan p (i + 1) fuel else i

theorem scan_spec (p : Nat → Bool) (i fuel : Nat) :
    i ≤ scan p i fuel ∧ scan p i fuel ≤ i + fuel ∧
      (∀ j, i ≤ j → j < scan p i fuel → p j = true) ∧
      (scan p i fuel < i + fuel → p (scan p i fuel) = false) := by
  induction fuel generalizing i with
  | zero =>
      refine ⟨le_refl _, le_refl _, fun j hij hj => ?_, fun h => ?_⟩
      · simp only [scan] at hj; omega
      · simp only [scan] at h; omega
  | succ fuel ih =>
      by_cases hp : p i = true
      · have heq : scan p i (fuel + 1) = scan p (i + 1) fuel := by simp only [scan, hp, if_true]
        obtain ⟨h1, h2, h3, h4⟩ := ih (i + 1)
        rw [heq]
        refine ⟨by omega, by omega, fun j hij hj => ?_, fun h => h4 (by omega)⟩
        rcases Nat.eq_or_lt_of_le hij with rfl | hlt
        · exact hp
        · exact h3 j hlt hj
      · have heq : scan p i (fuel + 1) = i := by
          simp only [scan, hp, Bool.false_eq_true, if_false]
        rw [heq]
        refine ⟨le_refl _, by omega, fun j hij hj => by omega, fun _ => ?_⟩
        simpa using hp

/-- The stopping index of a scan is determined by what it passed and where it stopped. -/
theorem scan_eq_of (p : Nat → Bool) {i fuel r : Nat} (hir : i ≤ r) (hr : r ≤ i + fuel)
    (hpass : ∀ j, i ≤ j → j < r → p j = true) (hstop : r < i + fuel → p r = false) :
    scan p i fuel = r := by
  obtain ⟨h1, h2, h3, h4⟩ := scan_spec p i fuel
  rcases Nat.lt_trichotomy (scan p i fuel) r with hlt | heq | hgt
  · have hf := h4 (by omega)
    rw [hpass _ h1 hlt] at hf
    cases hf
  · exact heq
  · have hf := hstop (by omega)
    rw [h3 r hir hgt] at hf
    cases hf

end Scan
