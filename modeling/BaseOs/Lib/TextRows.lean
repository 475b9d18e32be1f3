import Mathlib

set_option autoImplicit false

/-! # Text in rows

The layout of a text on a page of a given width: the text is cut at every line break, and each line
fills as many rows as it needs, from left to right, at least one. `rows_concat` says how the layout
grows with the text: always at its end. -/

namespace TextRows

variable {α : Type*}

/-- The rows of one line of `n` characters: `n / width` of them, rounded up, and at least one. -/
def lineRows (width : Nat) (line : List α) : List (List α) :=
  (List.range (max 1 ((line.length + width - 1) / width))).map fun i =>
    (line.drop (i * width)).take width

/-- The rows of a text. -/
def rows (isBreak : α → Bool) (width : Nat) (text : List α) : List (List α) :=
  (text.splitOnP isBreak).flatMap (lineRows width)

variable {isBreak : α → Bool} {width : Nat} {text line : List α} {c : α}

theorem lineRows_short (hwidth : 0 < width) (h : line.length ≤ width) :
    lineRows width line = [line] := by
  have hlt : (line.length + width - 1) / width < 2 := by
    rw [Nat.div_lt_iff_lt_mul hwidth]
    omega
  have hone : max 1 ((line.length + width - 1) / width) = 1 := by omega
  rw [lineRows, hone, List.range_one, List.map_singleton, Nat.zero_mul, List.drop_zero,
    List.take_of_length_le h]

theorem lineRows_long (hwidth : 0 < width) (h : width < line.length) :
    lineRows width line = line.take width :: lineRows width (line.drop width) := by
  have hstep : (line.length + width - 1) / width = (line.length - width + width - 1) / width + 1 := by
    rw [← Nat.add_div_right _ hwidth]
    congr 1
    omega
  have hpos : 1 ≤ (line.length - width + width - 1) / width := by
    rw [Nat.le_div_iff_mul_le hwidth]
    omega
  have hcount : max 1 ((line.length + width - 1) / width)
      = max 1 ((line.length - width + width - 1) / width) + 1 := by omega
  rw [lineRows, lineRows, hcount, List.length_drop, List.range_succ_eq_map, List.map_cons,
    List.map_map, Nat.zero_mul, List.drop_zero]
  refine congrArg _ (List.map_congr_left fun i _ => ?_)
  rw [Function.comp_apply, List.drop_drop, Nat.succ_mul, Nat.add_comm]

/-- The last row of a line. -/
theorem lineRows_eq_concat (hwidth : 0 < width) (line : List α) :
    ∃ above last, lineRows width line = above ++ [last] ∧ last.length ≤ width := by
  induction hn : line.length using Nat.strong_induction_on generalizing line with
  | _ n ih =>
      by_cases hshort : line.length ≤ width
      · exact ⟨[], line, lineRows_short hwidth hshort, hshort⟩
      · obtain ⟨above, last, heq, hlast⟩ := ih (n - width) (by omega) (line.drop width)
          (by rw [List.length_drop, hn])
        exact ⟨line.take width :: above, last, by rw [lineRows_long hwidth (by omega), heq]; rfl, hlast⟩

/-- One more character in a line: in the last row if there is room, else in a new one. -/
theorem lineRows_concat (hwidth : 0 < width) (line : List α) {above : List (List α)} {last : List α}
    (h : lineRows width line = above ++ [last]) :
    lineRows width (line ++ [c])
      = if last.length < width then above ++ [last ++ [c]] else above ++ [last] ++ [[c]] := by
  induction hn : line.length using Nat.strong_induction_on generalizing line above with
  | _ n ih =>
      by_cases hshort : line.length ≤ width
      · rw [lineRows_short hwidth hshort] at h
        obtain ⟨rfl, rfl⟩ : above = [] ∧ last = line := by
          cases above with
          | nil => exact ⟨rfl, (List.singleton_inj.1 h).symm⟩
          | cons row above => simp at h
        split_ifs with hroom
        · exact lineRows_short hwidth (by rw [List.length_append, List.length_singleton]; omega)
        · have hfull : last.length = width := by omega
          rw [lineRows_long hwidth (by rw [List.length_append, List.length_singleton]; omega),
            List.take_left' hfull, List.drop_left' hfull,
            lineRows_short hwidth (by rw [List.length_singleton]; omega)]
          rfl
      · rw [lineRows_long hwidth (by omega)] at h
        cases above with
        | nil =>
            obtain ⟨above', last', heq, -⟩ := lineRows_eq_concat hwidth (line.drop width)
            rw [heq] at h
            simp at h
        | cons row above =>
            obtain ⟨rfl, hrest⟩ := List.cons.inj h
            rw [lineRows_long hwidth (by rw [List.length_append]; omega),
              List.take_append_of_le_length (by omega), List.drop_append_of_le_length (by omega),
              ih (n - width) (by omega) (line.drop width) hrest (by rw [List.length_drop, hn])]
            split_ifs <;> rfl

/-- One more character that is no line break goes into the last line. -/
theorem splitOnP_concat (isBreak : α → Bool) (text : List α) :
    ∃ lines last, text.splitOnP isBreak = lines ++ [last] ∧
      ∀ c, isBreak c = false → (text ++ [c]).splitOnP isBreak = lines ++ [last ++ [c]] := by
  induction text with
  | nil =>
      refine ⟨[], [], rfl, fun c hc => List.splitOnP_eq_singleton ?_⟩
      simpa using hc
  | cons a text ih =>
      obtain ⟨lines, last, heq, hconcat⟩ := ih
      simp only [List.cons_append, List.splitOnP_cons_eq_if_modifyHead, heq]
      by_cases ha : isBreak a = true
      · refine ⟨[] :: lines, last, by rw [if_pos ha]; rfl, fun c hc => ?_⟩
        rw [if_pos ha, hconcat c hc]
        rfl
      · cases lines with
        | nil =>
            refine ⟨[], a :: last, by rw [if_neg ha]; rfl, fun c hc => ?_⟩
            rw [if_neg ha, hconcat c hc]
            rfl
        | cons line lines =>
            refine ⟨(a :: line) :: lines, last, by rw [if_neg ha]; rfl, fun c hc => ?_⟩
            rw [if_neg ha, hconcat c hc]
            rfl

/-- One more character: a line break opens a new row, any other character goes into the last row if
    there is room, else into a new one. -/
theorem rows_concat (isBreak : α → Bool) (hwidth : 0 < width) (text : List α) :
    ∃ above last, rows isBreak width text = above ++ [last] ∧
      ∀ c, rows isBreak width (text ++ [c])
        = if isBreak c then above ++ [last] ++ [[]]
          else if last.length < width then above ++ [last ++ [c]]
          else above ++ [last] ++ [[c]] := by
  obtain ⟨lines, line, hlines, hconcat⟩ := splitOnP_concat isBreak text
  obtain ⟨above, last, hrows, -⟩ := lineRows_eq_concat hwidth line
  have heq : rows isBreak width text = lines.flatMap (lineRows width) ++ above ++ [last] := by
    rw [rows, hlines, List.flatMap_append, List.flatMap_singleton, hrows, List.append_assoc]
  refine ⟨lines.flatMap (lineRows width) ++ above, last, heq, fun c => ?_⟩
  by_cases hc : isBreak c = true
  · rw [if_pos hc, ← heq, rows, List.splitOnP_append_cons _ _ hc, List.flatMap_append]
    congr 1
    rw [List.splitOnP_nil, List.flatMap_singleton]
    exact lineRows_short hwidth (Nat.zero_le _)
  · rw [if_neg hc, rows, hconcat c (by simpa using hc), List.flatMap_append, List.flatMap_singleton,
      lineRows_concat hwidth line hrows]
    split_ifs
    · rw [List.append_assoc]
    · rw [List.append_assoc, List.append_assoc, List.append_assoc]

end TextRows
