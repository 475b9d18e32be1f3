import BaseOs.Lib.Stores
import BaseOs.Process

set_option autoImplicit false

/-! # Where a command is stored

`parse_cmd_args` fills the 128 bytes of the command buffer and of the terminal's `cmd_args`, `execute` the
32 bytes of the file name. Here the three are followed store by store. Each loop stops at the end of its
buffer; the terminator behind the loop is stored without looking, which is one byte too far for a first
word of 128 characters or more (`parseInBounds_iff`). -/

namespace BaseOs

open Stores

/-! ## The stores -/

/-- A loop that copies the command from index `i` on while `p` holds, to the place `i - start`: its
    stores, and the index it stops at. -/
def copyWhile (p : Nat → Bool) (comm : Bytes) (start : Nat) : Nat → Nat → List (Store UInt8) × Nat
  | 0, i => ([], i)
  | fuel + 1, i =>
    if p i then
      let rest := copyWhile p comm start fuel (i + 1)
      (⟨i - start, comm i⟩ :: rest.1, rest.2)
    else ([], i)

/-- The stores of `parse_cmd_args` into the command buffer and into `cmd_args`. -/
def parseStores (comm : Bytes) : List (Store UInt8) × List (Store UInt8) :=
  let word := copyWhile (fun i => comm i != 32 && comm i != 0) comm 0 termBuffSize 0
  let argStart := Scan.scan (fun i => comm i == 32 && comm i != 0) word.2 (termBuffSize - word.2)
  let args := copyWhile (fun i => comm i != 0) comm argStart (termBuffSize - argStart) argStart
  (word.1 ++ [⟨word.2, 0⟩], args.1 ++ [⟨args.2 - argStart, 0⟩])

/-- The stores of `execute` into the file name, from index `i` on: it gives up at index 31. -/
def fileNameStores (command : Bytes) : Nat → Nat → List (Store UInt8)
  | 0, _ => []
  | fuel + 1, i =>
    if command i = 32 ∨ command i = 0 ∨ command i = 10 then [⟨i, 0⟩]
    else if i ≥ fileNameLength - 1 then []
    else ⟨i, command i⟩ :: fileNameStores command fuel (i + 1)

variable {p : Nat → Bool} {comm command row fileName f : Bytes}

theorem copyWhile_eq (p : Nat → Bool) (comm : Bytes) {start i : Nat} (hi : start ≤ i) (fuel : Nat) :
    copyWhile p comm start fuel i =
      (copy (i - start) (fun j => comm (i + j)) (Scan.scan p i fuel - i), Scan.scan p i fuel) := by
  induction fuel generalizing i with
  | zero =>
      simp only [copyWhile, Scan.scan, Nat.sub_self]
      rfl
  | succ fuel ih =>
      rw [copyWhile, Scan.scan]
      split_ifs with hp
      · have hle := (Scan.scan_spec p (i + 1) fuel).1
        have hcount : Scan.scan p (i + 1) fuel - i = Scan.scan p (i + 1) fuel - (i + 1) + 1 := by omega
        rw [ih (by omega), hcount]
        unfold copy
        rw [List.range_succ_eq_map, List.map_cons, List.map_map]
        simp only [Nat.add_zero, Prod.mk.injEq, List.cons.injEq, true_and, and_true]
        refine List.map_congr_left fun j _ => ?_
        simp only [Function.comp_apply, Store.mk.injEq, Nat.succ_eq_add_one]
        constructor
        · omega
        · congr 1
          omega
      · rw [Nat.sub_self]
        rfl

/-- The stores leave what `parse_cmd_args` leaves. -/
theorem apply_parseStores (buf row comm : Bytes) :
    (apply buf (parseStores comm).1, apply row (parseStores comm).2) = parseCmdArgs buf row comm := by
  unfold parseStores parseCmdArgs
  simp only [copyWhile_eq _ _ (Nat.zero_le 0), copyWhile_eq _ _ (le_refl _), Nat.sub_zero, Nat.sub_self,
    Nat.zero_add, apply_append, apply_cons, apply_nil]
  refine Prod.ext (funext fun i => ?_) (funext fun i => ?_)
  all_goals simp only [Function.update_apply, apply_copy, Nat.zero_le, true_and, Nat.zero_add, Nat.sub_zero]
  · split_ifs <;> first | rfl | omega
  · split_ifs <;> first | rfl | omega

/-- Where the file name ends, looked for from index `i` on. -/
def nameEnd (command : Bytes) (i fuel : Nat) : Nat :=
  Scan.scan (fun i => command i != 32 && command i != 0 && command i != 10) i fuel

theorem nameEnd_succ (command : Bytes) (i fuel : Nat) :
    nameEnd command i (fuel + 1)
      = if command i = 32 ∨ command i = 0 ∨ command i = 10 then i else nameEnd command (i + 1) fuel := by
  unfold nameEnd
  rw [Scan.scan]
  by_cases h : command i = 32 ∨ command i = 0 ∨ command i = 10
  · have hend : (command i != 32 && command i != 0 && command i != 10) = false := by
      rcases h with h | h | h <;> simp [h]
    rw [if_pos h, hend, if_neg Bool.false_ne_true]
  · have hchar : (command i != 32 && command i != 0 && command i != 10) = true := by
      push Not at h
      simp [h]
    rw [if_neg h, hchar, if_pos rfl]

/-- A name that ends in time is stored with its terminator. -/
theorem apply_fileNameStores {fuel i : Nat} (hfuel : i + fuel = fileNameLength)
    (hend : nameEnd command i fuel < fileNameLength) (buf : Bytes) (j : Nat) :
    apply buf (fileNameStores command fuel i) j =
      if i ≤ j ∧ j < nameEnd command i fuel then command j
      else if j = nameEnd command i fuel then 0 else buf j := by
  induction fuel generalizing i buf with
  | zero =>
      have hnone : nameEnd command i 0 = i := rfl
      omega
  | succ fuel ih =>
      have hle : i + 1 ≤ nameEnd command (i + 1) fuel := (Scan.scan_spec _ _ _).1
      rw [nameEnd_succ] at hend ⊢
      rw [fileNameStores]
      by_cases hstop : command i = 32 ∨ command i = 0 ∨ command i = 10
      · simp only [if_pos hstop]
        rw [apply_cons, apply_nil, Function.update_apply, if_neg (show ¬ (i ≤ j ∧ j < i) by omega)]
      · rw [if_neg hstop] at hend
        simp only [if_neg hstop]
        rw [if_neg (by omega), apply_cons, ih (by omega) hend]
        by_cases hj : j = i
        · subst hj
          rw [if_neg (by omega), if_neg (by omega), if_pos (by omega), Function.update_self]
        · rw [Function.update_of_ne hj]
          by_cases hin : i ≤ j ∧ j < nameEnd command (i + 1) fuel
          · rw [if_pos hin, if_pos (by omega)]
          · rw [if_neg hin, if_neg (by omega)]

/-- So do the stores of the file name, unless the name is too long. -/
theorem copyFileName_eq_apply (h : copyFileName command fileName = some f) :
    apply fileName (fileNameStores command fileNameLength 0) = f := by
  unfold copyFileName at h
  simp only at h
  split_ifs at h with hlong
  obtain rfl := Option.some.inj h
  funext j
  rw [apply_fileNameStores (Nat.zero_add _) (Nat.lt_of_not_le hlong)]
  simp only [Nat.zero_le, true_and]
  rfl

/-! ## Where they go -/

/-- `parse_cmd_args` and `execute` write inside their buffers. -/
structure ParseInBounds (comm buf : Bytes) : Prop where
  command : Within termBuffSize (parseStores comm).1
  args : Within termBuffSize (parseStores comm).2
  fileName : Within fileNameLength (fileNameStores (apply buf (parseStores comm).1) fileNameLength 0)

theorem command_within_iff (comm : Bytes) :
    Within termBuffSize (parseStores comm).1 ↔ ∃ i < termBuffSize, comm i = 32 ∨ comm i = 0 := by
  obtain ⟨-, hle, hpass, hstop⟩ := Scan.scan_spec (fun i => comm i != 32 && comm i != 0) 0 termBuffSize
  rw [Nat.zero_add] at hle hstop
  unfold parseStores
  simp only [copyWhile_eq _ _ (Nat.zero_le 0)]
  rw [within_append, within_cons, and_iff_right (within_copy (by omega)), and_iff_left within_nil]
  constructor
  · intro hlt
    have hend := hstop hlt
    simp only [Bool.and_eq_false_iff, bne_eq_false_iff_eq] at hend
    exact ⟨_, hlt, hend⟩
  · rintro ⟨i, hi, hend⟩
    by_contra hlt
    change ¬ Scan.scan (fun i => comm i != 32 && comm i != 0) 0 termBuffSize < termBuffSize at hlt
    have hpassed := hpass i (Nat.zero_le i) (by omega)
    simp only [Bool.and_eq_true, bne_iff_ne] at hpassed
    exact hend.elim hpassed.1 hpassed.2

/-- The arguments begin behind the first character, if there are any. -/
theorem args_within (comm : Bytes) : Within termBuffSize (parseStores comm).2 := by
  have hsize : termBuffSize = 128 := rfl
  unfold parseStores
  simp only [copyWhile_eq _ _ (Nat.zero_le 0), copyWhile_eq _ _ (le_refl _)]
  obtain ⟨-, hword, -, hwordEnd⟩ := Scan.scan_spec (fun i => comm i != 32 && comm i != 0) 0 termBuffSize
  generalize Scan.scan (fun i => comm i != 32 && comm i != 0) 0 termBuffSize = wordEnd at *
  obtain ⟨hskip, hstart, -, hstartEnd⟩ :=
    Scan.scan_spec (fun i => comm i == 32 && comm i != 0) wordEnd (termBuffSize - wordEnd)
  generalize Scan.scan (fun i => comm i == 32 && comm i != 0) wordEnd (termBuffSize - wordEnd)
    = argStart at *
  obtain ⟨hargs, hend, hpass, -⟩ :=
    Scan.scan_spec (fun i => comm i != 0) argStart (termBuffSize - argStart)
  generalize Scan.scan (fun i => comm i != 0) argStart (termBuffSize - argStart) = argEnd at *
  have hshort : argEnd - argStart < termBuffSize := by
    by_contra hlong
    -- arguments of 128 characters would begin where the command does
    obtain rfl : argStart = 0 := by omega
    obtain rfl : wordEnd = 0 := by omega
    have hfirst := hpass 0 le_rfl (by omega)
    have hword0 := hwordEnd (by omega)
    have hskip0 := hstartEnd (by omega)
    simp only [bne_iff_ne] at hfirst
    simp [hfirst] at hword0 hskip0
    exact hskip0 hword0
  rw [within_append, within_cons]
  exact ⟨within_copy (by omega), hshort, within_nil⟩

/-- The file name is given up at index 31. -/
theorem fileName_within {command : Bytes} {fuel i : Nat} (hi : i < fileNameLength) :
    Within fileNameLength (fileNameStores command fuel i) := by
  induction fuel generalizing i with
  | zero => exact within_nil
  | succ fuel ih =>
      rw [fileNameStores]
      split_ifs with hstop hlong
      · exact within_cons.2 ⟨hi, within_nil⟩
      · exact within_nil
      · exact within_cons.2 ⟨hi, ih (by omega)⟩

/-- A command is stored inside the buffers, whatever they held before, exactly if its first word ends
    within the first 128 characters. -/
theorem parseInBounds_iff (comm buf : Bytes) :
    ParseInBounds comm buf ↔ ∃ i < termBuffSize, comm i = 32 ∨ comm i = 0 :=
  ⟨fun h => (command_within_iff comm).1 h.command,
    fun h => ⟨(command_within_iff comm).2 h, args_within comm, fileName_within (by decide)⟩⟩

/-- A command of 128 letters: its terminator is stored behind the buffer. -/
theorem parse_not_inBounds :
    ¬ ∀ comm buf : Bytes, (∃ n, comm n = 0) → ParseInBounds comm buf := by
  intro hall
  have hnul : cstr (List.replicate 128 97) 128 = 0 := by simp [cstr]
  have hinside := hall (cstr (List.replicate 128 97)) (fun _ => 0) ⟨128, hnul⟩
  obtain ⟨i, hi, hend⟩ := (command_within_iff _).1 hinside.command
  have hletter : cstr (List.replicate 128 97) i = 97 := by
    unfold cstr
    rw [List.getD_eq_getElem _ _ (by rwa [List.length_replicate]), List.getElem_replicate]
  rw [hletter] at hend
  revert hend
  decide

end BaseOs
