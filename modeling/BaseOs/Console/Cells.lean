import BaseOs.Console.Bounds

set_option autoImplicit false

/-! # The screen cell by cell

A cell of the screen is a character with its attribute. Each routine of the console is described by
what it leaves in every cell; cells are numbered row after row from the top left. -/

namespace BaseOs

namespace Console

/-- The character and the attribute of a cell. -/
def cell (video : Bytes) (n : Nat) : UInt8 × UInt8 := (video (n * 2), video (n * 2 + 1))

/-- An empty cell. -/
def blank : UInt8 × UInt8 := (32, attrib)

variable {con : Console}

theorem cell_setCell (video : Bytes) (n m : Nat) (c attr : UInt8) :
    cell (setCell video n c attr) m = if m = n then (c, attr) else cell video m := by
  unfold cell setCell
  split_ifs with h
  · subst h
    rw [Function.update_of_ne (by omega), Function.update_self, Function.update_self]
  · rw [Function.update_of_ne (by omega), Function.update_of_ne (by omega),
      Function.update_of_ne (by omega), Function.update_of_ne (by omega)]

/-! ## `clear` -/

/-- A loop that blanks `count` cells from cell `start` on. -/
theorem cell_blankLoop (video : Bytes) (start count n : Nat) :
    cell ((List.range count).foldl (fun v i => setCell v (start + i) 32 attrib) video) n
      = if start ≤ n ∧ n < start + count then blank else cell video n := by
  induction count with
  | zero => simp only [List.range_zero, List.foldl_nil, if_neg (show ¬ (start ≤ n ∧ n < start + 0) by omega)]
  | succ count ih =>
      rw [List.range_succ, List.foldl_append, List.foldl_cons, List.foldl_nil, cell_setCell, ih]
      by_cases hn : n = start + count
      · rw [if_pos hn, if_pos (by omega)]
        rfl
      · rw [if_neg hn]
        by_cases hin : start ≤ n ∧ n < start + count
        · rw [if_pos hin, if_pos (by omega)]
        · rw [if_neg hin, if_neg (by omega)]

theorem clear_cell (con : Console) {n : Nat} (hn : n < numRows * numCols) :
    cell con.clear.video n = blank := by
  have h := cell_blankLoop con.video 0 (numRows * numCols) n
  rw [if_pos (by omega)] at h
  simpa only [clear, Nat.zero_add] using h

/-! ## `scroll` -/

/-- One column of `scroll`: the first `count` rows take the row below. -/
theorem cell_shiftColumn (video : Bytes) {col : Nat} (hcol : col < numCols) (count n : Nat) :
    cell ((List.range count).foldl (fun w j =>
      setCell w (numCols * j + col) (w ((numCols * (j + 1) + col) * 2))
        (w ((numCols * (j + 1) + col) * 2 + 1))) video) n
      = if n % numCols = col ∧ n / numCols < count then cell video (n + numCols) else cell video n := by
  induction count generalizing n with
  | zero => simp
  | succ count ih =>
      have hbelow := ih (numCols * (count + 1) + col)
      rw [List.range_succ, List.foldl_append, List.foldl_cons, List.foldl_nil, cell_setCell, ih]
      unfold numCols at *
      rw [if_neg (by omega)] at hbelow
      by_cases hn : n = 80 * count + col
      · rw [if_pos hn, if_pos (by omega), show n + 80 = 80 * (count + 1) + col by omega]
        exact hbelow
      · rw [if_neg hn]
        by_cases hin : n % 80 = col ∧ n / 80 < count
        · rw [if_pos hin, if_pos (by omega)]
        · rw [if_neg hin, if_neg (by omega)]

/-- All columns. -/
theorem cell_shiftColumns (video : Bytes) {cols : Nat} (hcols : cols ≤ numCols) (n : Nat) :
    cell ((List.range cols).foldl (fun v i =>
      (List.range (numRows - 1)).foldl (fun w j =>
        setCell w (numCols * j + i) (w ((numCols * (j + 1) + i) * 2))
          (w ((numCols * (j + 1) + i) * 2 + 1))) v) video) n
      = if n % numCols < cols ∧ n / numCols < numRows - 1 then cell video (n + numCols)
        else cell video n := by
  induction cols generalizing n with
  | zero => simp
  | succ cols ih =>
      have hbelow := ih (by omega) (n + numCols)
      rw [List.range_succ, List.foldl_append, List.foldl_cons, List.foldl_nil,
        cell_shiftColumn _ (by omega), ih (by omega) n, hbelow]
      unfold numCols at *
      by_cases hn : n % 80 = cols ∧ n / 80 < numRows - 1
      · rw [if_pos hn, if_neg (by omega), if_pos (by omega)]
      · rw [if_neg hn]
        by_cases hin : n % 80 < cols ∧ n / 80 < numRows - 1
        · rw [if_pos hin, if_pos (by omega)]
        · rw [if_neg hin, if_neg (by omega)]

/-- `scroll` moves every row up by one and blanks the last one. -/
theorem shiftRows_cell (video : Bytes) {n : Nat} (hn : n < numRows * numCols) :
    cell (shiftRows video) n = if n < numCols * (numRows - 1) then cell video (n + numCols) else blank := by
  unfold shiftRows
  rw [cell_blankLoop, cell_shiftColumns video le_rfl]
  unfold numRows numCols at *
  by_cases hlast : n < 80 * (25 - 1)
  · rw [if_neg (by omega), if_pos (by omega), if_pos hlast]
  · rw [if_pos (by omega), if_neg hlast]

/-! ## `putc` -/

/-- The cursor goes to the start of the next row, and the screen moves up if there is none. -/
def newLine (con : Console) : Console :=
  if con.y + 1 ≥ numRows then { con with video := shiftRows con.video, x := 0 }
  else { con with x := 0, y := con.y + 1 }

/-- A character at the cursor. -/
def putChar (con : Console) (c : UInt8) : Console :=
  { con with video := setCell con.video (numCols * con.y + con.x) c attrib, x := con.x + 1 }

/-- `putc` on the screen: a line break, or a character after the line break that may be due. -/
theorem putc_eq (h : con.OnScreen) (c : UInt8) :
    con.putc c = if c = 10 ∨ c = 13 then con.newLine
      else if con.x ≥ numCols then con.newLine.putChar c else con.putChar c := by
  have hy := h.y_lt
  rw [putc]
  unfold newLine putChar
  split_ifs with hbreak hbottom hwrap hbottom
  · rw [@scroll_last { con with x := 0 } (by simp only; omega)]
  · rfl
  · rw [@scroll_last { con with x := 0 } (by simp only; omega)]
  · rfl
  · rfl

/-! ## The cursor as a cell -/

/-- The cell of the cursor; just past the last cell of the screen when a row break is due there. -/
def pos (con : Console) : Nat := numCols * con.y + con.x

/-- The screen moves up before the next character: the cursor is past the end of the last row. -/
def full (con : Console) : Bool := con.x ≥ numCols && con.y + 1 ≥ numRows

theorem full_iff (h : con.OnScreen) : con.full = true ↔ con.pos = numRows * numCols := by
  obtain ⟨hx, hy⟩ := h
  unfold full pos
  simp only [Bool.and_eq_true, decide_eq_true_eq]
  unfold numRows numCols at *
  omega

theorem pos_le (h : con.OnScreen) : con.pos ≤ numRows * numCols := by
  obtain ⟨hx, hy⟩ := h
  unfold pos
  unfold numRows numCols at *
  omega

/-- A character on a screen that is not full: it goes to the cell of the cursor. -/
theorem putc_room (h : con.OnScreen) {c : UInt8} (hc : ¬ (c = 10 ∨ c = 13)) (hroom : con.full = false) :
    (con.putc c).pos = con.pos + 1 ∧
      ∀ n, cell (con.putc c).video n = if n = con.pos then (c, attrib) else cell con.video n := by
  have hx := h.x_le
  have hfull : ¬ (con.x ≥ numCols ∧ con.y + 1 ≥ numRows) := by simpa [full] using hroom
  rw [putc_eq h, if_neg hc]
  unfold pos
  by_cases hwrap : con.x ≥ numCols
  · have hline : con.newLine = { con with x := 0, y := con.y + 1 } := if_neg fun hb => hfull ⟨hwrap, hb⟩
    rw [if_pos hwrap, hline]
    have hcell : numCols * (con.y + 1) + 0 = numCols * con.y + con.x := by
      unfold numCols at *
      omega
    refine ⟨?_, fun n => ?_⟩
    · simp only [putChar]
      omega
    · simp only [putChar, hcell]
      exact cell_setCell _ _ _ _ _
  · rw [if_neg hwrap]
    exact ⟨rfl, fun n => cell_setCell _ _ _ _ _⟩

/-- A character on a full screen: the screen moves up first. -/
theorem putc_full (h : con.OnScreen) {c : UInt8} (hc : ¬ (c = 10 ∨ c = 13)) (hfull : con.full = true) :
    (con.putc c).pos + numCols = con.pos + 1 ∧
      ∀ n < numRows * numCols, cell (con.putc c).video n
        = if n + numCols = con.pos then (c, attrib)
          else if n + numCols < con.pos then cell con.video (n + numCols) else blank := by
  have hpos := (full_iff h).1 hfull
  have hx := h.x_le
  have hy := h.y_lt
  simp only [full, Bool.and_eq_true, decide_eq_true_eq] at hfull
  have hline : con.newLine = { con with video := shiftRows con.video, x := 0 } := if_pos hfull.2
  rw [putc_eq h, if_neg hc, if_pos hfull.1, hline, hpos]
  refine ⟨?_, fun n hn => ?_⟩
  · simp only [putChar, pos]
    unfold numRows numCols at *
    omega
  · have hcell : (n = numCols * con.y + 0) ↔ n + numCols = numRows * numCols := by
      unfold numRows numCols at *
      omega
    have hlast : n < numCols * (numRows - 1) ↔ n + numCols < numRows * numCols := by
      unfold numRows numCols at *
      omega
    simp only [putChar, cell_setCell, hcell, shiftRows_cell _ hn, hlast]

/-- `backspace` blanks the cell before the cursor and goes there. -/
theorem backspace_cell (h : con.OnScreen) (hpos : 0 < con.pos) :
    con.backspace.pos + 1 = con.pos ∧
      ∀ n, cell con.backspace.video n = if n + 1 = con.pos then blank else cell con.video n := by
  have hx := h.x_le
  unfold pos at hpos ⊢
  unfold backspace
  by_cases hedge : con.x = 0 ∧ con.y > 0
  · rw [if_pos hedge]
    have hcell : ∀ n, n = numCols * (con.y - 1) + (numCols - 1) ↔ n + 1 = numCols * con.y + con.x := by
      unfold numCols
      omega
    refine ⟨(hcell _).1 rfl, fun n => ?_⟩
    simp only [cell_setCell, hcell]
    rfl
  · have hcell : ∀ n, n = numCols * con.y + (con.x - 1) ↔ n + 1 = numCols * con.y + con.x := by
      unfold numCols at *
      omega
    rw [if_neg hedge, if_neg (by unfold numCols at hpos; omega)]
    refine ⟨(hcell _).1 rfl, fun n => ?_⟩
    simp only [cell_setCell, hcell]
    rfl

/-- Text without line breaks that fits on the screen. -/
theorem print_fits {text : List UInt8} (h : con.OnScreen) (hbreaks : ∀ c ∈ text, ¬ (c = 10 ∨ c = 13))
    (hfits : con.pos + text.length ≤ numRows * numCols) :
    (con.print text).pos = con.pos + text.length ∧
      ∀ n, cell (con.print text).video n
        = if con.pos ≤ n ∧ n < con.pos + text.length then (text.getD (n - con.pos) 0, attrib)
          else cell con.video n := by
  induction text generalizing con with
  | nil => exact ⟨rfl, fun n => by rw [if_neg (by simp)]; rfl⟩
  | cons c text ih =>
      rw [List.length_cons] at hfits
      have hroom : con.full = false := by
        rw [Bool.eq_false_iff, ne_eq, full_iff h]
        omega
      obtain ⟨hpos, hcells⟩ := putc_room h (hbreaks c List.mem_cons_self) hroom
      obtain ⟨hpos', hcells'⟩ := ih (putc_keeps h c).onScreen
        (fun b hb => hbreaks b (List.mem_cons_of_mem c hb)) (by omega)
      rw [hpos] at hpos' hcells'
      change ((con.putc c).print text).pos = _ ∧ ∀ n, cell ((con.putc c).print text).video n = _
      refine ⟨by rw [hpos', List.length_cons]; omega, fun n => ?_⟩
      rw [hcells', hcells, List.length_cons]
      by_cases hn : n = con.pos
      · rw [if_neg (by omega), if_pos hn, if_pos (by omega), hn, Nat.sub_self]
        rfl
      · by_cases hin : con.pos + 1 ≤ n ∧ n < con.pos + 1 + text.length
        · rw [if_pos hin, if_pos (by omega), show n - con.pos = n - (con.pos + 1) + 1 by omega]
          rfl
        · rw [if_neg hin, if_neg hn, if_neg (by omega)]

end Console

end BaseOs
