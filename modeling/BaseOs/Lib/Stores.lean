import Mathlib

set_option autoImplicit false

/-! # Buffers filled by a list of stores

A routine that writes into a buffer is described by the stores it makes, in order: `apply` is what they
leave in the buffer, and where the routine writes is a question about the list alone (`Within`), also
where a store leaves a value that was there before. -/

namespace Stores

variable {α : Type*}

/-- One store into a buffer. -/
structure Store (α : Type*) where
  pos : Nat
  val : α
  deriving DecidableEq

/-- The buffer after the stores. -/
def apply (buf : Nat → α) (stores : List (Store α)) : Nat → α :=
  stores.foldl (fun b s => Function.update b s.pos s.val) buf

/-- The stores stay below `n`. -/
def Within (n : Nat) (stores : List (Store α)) : Prop := ∀ s ∈ stores, s.pos < n

variable {s : Store α} {stores stores' : List (Store α)} {m n : Nat}

@[simp]
theorem apply_nil (buf : Nat → α) : apply buf [] = buf := rfl

@[simp]
theorem apply_cons (buf : Nat → α) (s : Store α) (stores : List (Store α)) :
    apply buf (s :: stores) = apply (Function.update buf s.pos s.val) stores := rfl

theorem apply_append (buf : Nat → α) (stores stores' : List (Store α)) :
    apply buf (stores ++ stores') = apply (apply buf stores) stores' := List.foldl_append

@[simp]
theorem within_nil : Within n ([] : List (Store α)) := by
  intro s hs
  cases hs

theorem within_cons : Within n (s :: stores) ↔ s.pos < n ∧ Within n stores := List.forall_mem_cons

theorem within_append : Within n (stores ++ stores') ↔ Within n stores ∧ Within n stores' :=
  List.forall_mem_append

/-- What is not stored to stays. -/
theorem apply_frame {buf : Nat → α} {i : Nat} (h : ∀ s ∈ stores, s.pos ≠ i) : apply buf stores i = buf i := by
  induction stores generalizing buf with
  | nil => rfl
  | cons s stores ih =>
      obtain ⟨hs, hstores⟩ := List.forall_mem_cons.1 h
      rw [apply_cons, ih hstores, Function.update_of_ne hs.symm]

/-- Stores to different places all stay. -/
theorem apply_stored {buf : Nat → α} (h : stores.Pairwise fun s s' => s'.pos ≠ s.pos) (hs : s ∈ stores) :
    apply buf stores s.pos = s.val := by
  induction stores generalizing buf with
  | nil => cases hs
  | cons s' stores ih =>
      obtain ⟨hfirst, hrest⟩ := List.pairwise_cons.1 h
      rw [apply_cons]
      rcases List.mem_cons.1 hs with rfl | hs
      · rw [apply_frame hfirst, Function.update_self]
      · exact ih hrest hs

/-! ## Copies -/

/-- Store `n` values one after the other, from position `dst` on. -/
def copy (dst : Nat) (f : Nat → α) (n : Nat) : List (Store α) :=
  (List.range n).map fun j => ⟨dst + j, f j⟩

theorem apply_copy (buf : Nat → α) (dst : Nat) (f : Nat → α) (n i : Nat) :
    apply buf (copy dst f n) i = if dst ≤ i ∧ i < dst + n then f (i - dst) else buf i := by
  unfold copy
  induction n with
  | zero => rw [if_neg (by omega), List.range_zero, List.map_nil, apply_nil]
  | succ n ih =>
      rw [List.range_succ, List.map_append, apply_append, List.map_singleton, apply_cons, apply_nil]
      by_cases hi : i = dst + n
      · subst hi
        rw [Function.update_self, if_pos (by omega), Nat.add_sub_cancel_left]
      · rw [Function.update_of_ne hi, ih]
        by_cases hin : dst ≤ i ∧ i < dst + n
        · rw [if_pos hin, if_pos (by omega)]
        · rw [if_neg hin, if_neg (by omega)]

theorem within_copy {dst : Nat} {f : Nat → α} (h : dst + m ≤ n) : Within n (copy dst f m) := by
  intro s hs
  obtain ⟨j, hj, rfl⟩ := List.mem_map.1 hs
  have hlt := List.mem_range.1 hj
  change dst + j < n
  omega

/-! ## A buffer inside a buffer -/

/-- The stores, made through a pointer `k` places into the buffer. -/
def shift (k : Nat) (stores : List (Store α)) : List (Store α) :=
  stores.map fun s => ⟨k + s.pos, s.val⟩

theorem apply_shift (buf : Nat → α) (k : Nat) (stores : List (Store α)) (i : Nat) :
    apply buf (shift k stores) (k + i) = apply (fun j => buf (k + j)) stores i := by
  induction stores generalizing buf with
  | nil => rfl
  | cons s stores ih =>
      have hfirst : (fun j => Function.update buf (k + s.pos) s.val (k + j))
          = Function.update (fun j => buf (k + j)) s.pos s.val :=
        Function.update_comp_eq_of_injective buf (add_right_injective k) s.pos s.val
      rw [shift, List.map_cons, apply_cons, apply_cons, ← hfirst]
      exact ih _

theorem apply_shift_of_lt (buf : Nat → α) {k i : Nat} (hi : i < k) (stores : List (Store α)) :
    apply buf (shift k stores) i = buf i := by
  induction stores generalizing buf with
  | nil => rfl
  | cons s stores ih =>
      have hne : i ≠ k + s.pos := by omega
      rw [shift, List.map_cons, apply_cons]
      exact (ih _).trans (Function.update_of_ne hne _ _)

/-! ## Reversal in place -/

/-- The stores that exchange two places. -/
def swap (buf : Nat → α) (lo hi : Nat) : List (Store α) := [⟨hi, buf lo⟩, ⟨lo, buf hi⟩]

theorem apply_swap (buf : Nat → α) (lo hi i : Nat) :
    apply buf (swap buf lo hi) i = if i = lo then buf hi else if i = hi then buf lo else buf i := by
  unfold swap
  rw [apply_cons, apply_cons, apply_nil, Function.update_apply, Function.update_apply]

/-- Two indices move towards each other and exchange what they meet, for at most `fuel` tests. -/
def swapEnds : Nat → (Nat → α) → Nat → Nat → Option (List (Store α))
  | 0, _, _, _ => none
  | fuel + 1, buf, lo, hi =>
    if lo < hi then
      (swapEnds fuel (apply buf (swap buf lo hi)) (lo + 1) (hi - 1)).map (swap buf lo hi ++ ·)
    else some []

theorem swapEnds_spec {fuel lo hi : Nat} (hfuel : hi ≤ lo + 2 * fuel) (buf : Nat → α) :
    ∃ stores, swapEnds (fuel + 1) buf lo hi = some stores ∧ Within (hi + 1) stores ∧
      ∀ i, apply buf stores i = if lo ≤ i ∧ i ≤ hi then buf (lo + hi - i) else buf i := by
  induction fuel generalizing buf lo hi with
  | zero =>
      rw [swapEnds, if_neg (by omega)]
      refine ⟨[], rfl, within_nil, fun i => ?_⟩
      rw [apply_nil]
      split_ifs with hin
      · rw [show lo + hi - i = i by omega]
      · rfl
  | succ fuel ih =>
      rw [swapEnds]
      split_ifs with hlt
      · obtain ⟨stores, hstores, hwithin, hget⟩ := @ih (lo + 1) (hi - 1) (by omega)
          (apply buf (swap buf lo hi))
        refine ⟨_, by rw [hstores, Option.map_some], ?_, fun i => ?_⟩
        · refine within_append.2 ⟨?_, fun s hs => (hwithin s hs).trans_le (by omega)⟩
          exact within_cons.2 ⟨Nat.lt_succ_self hi, within_cons.2 ⟨Nat.lt_succ_of_lt hlt, within_nil⟩⟩
        · rw [apply_append, hget]
          simp only [apply_swap]
          -- inside the two ends, at one of them, and outside
          by_cases hin : lo + 1 ≤ i ∧ i ≤ hi - 1
          · rw [if_pos hin, if_neg (by omega), if_neg (by omega), if_pos (by omega)]
            rw [show lo + 1 + (hi - 1) - i = lo + hi - i by omega]
          · rw [if_neg hin]
            by_cases hends : i = lo ∨ i = hi
            · rw [if_pos (show lo ≤ i ∧ i ≤ hi by omega)]
              rcases hends with rfl | rfl
              · rw [if_pos rfl, Nat.add_sub_cancel_left]
              · rw [if_neg hlt.ne', if_pos rfl, Nat.add_sub_cancel_right]
            · rw [if_neg (by omega), if_neg (by omega), if_neg (by omega)]
      · refine ⟨[], rfl, within_nil, fun i => ?_⟩
        rw [apply_nil]
        split_ifs with hin
        · rw [show lo + hi - i = i by omega]
        · rfl

end Stores
