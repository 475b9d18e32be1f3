import BaseOs.Console.Cells
import BaseOs.Lib.TextRows
import BaseOs.Process.Table
import BaseOs.Syscall

set_option autoImplicit false

/-! # What the screen shows

`putc` wraps lines late, scrolls from two places and moves the screen up in place. For all that, the
screen after `clear` and any output shows the end of the plain layout of the text: its lines in rows of
80 characters, the last 25 of them (`terminalWrite_displays`). -/

namespace BaseOs

namespace Console

/-- The characters at which a line ends. -/
def isBreak (c : UInt8) : Bool := c == 10 || c == 13

/-- The layout of a text: every line on as many rows of the screen's width as it needs. -/
def layout (text : List UInt8) : List (List UInt8) := TextRows.rows isBreak numCols text

/-- The part of the layout that fits on the screen: its last rows. -/
def visibleRows (text : List UInt8) : List (List UInt8) :=
  (layout text).drop ((layout text).length - numRows)

/-- A cell of a row: its character, or a blank past its end. -/
def cellOf (row : List UInt8) (col : Nat) : UInt8 × UInt8 := (row.getD col 32, attrib)

/-- The screen shows a text: the visible rows from the top, blank rows below them, and the cursor just
    past the last character of the last row. -/
structure Displays (con : Console) (text : List UInt8) : Prop where
  cells : ∀ row < numRows, ∀ col < numCols,
    cell con.video (numCols * row + col) = cellOf ((visibleRows text).getD row []) col
  x : con.x = ((visibleRows text).getLastD []).length
  y : con.y + 1 = (visibleRows text).length

/-! ## The screen and the layout step by step -/

/-- The screen shows the rows `above` and `last`, as far as they fit. -/
structure Shows (con : Console) (above : List (List UInt8)) (last : List UInt8) : Prop where
  x : con.x = last.length
  x_le : last.length ≤ numCols
  y : con.y = min above.length (numRows - 1)
  cells : ∀ row < numRows, ∀ col < numCols, cell con.video (numCols * row + col)
    = cellOf ((above ++ [last]).getD (above.length - (numRows - 1) + row) []) col

variable {con : Console} {above : List (List UInt8)} {last : List UInt8}

theorem Shows.onScreen (h : Shows con above last) : con.OnScreen where
  x_le := by
    rw [h.x]
    exact h.x_le
  y_lt := by
    rw [h.y]
    unfold numRows
    omega

theorem getD_concat_self {α : Type*} (l : List α) (a d : α) : (l ++ [a]).getD l.length d = a := by
  simp [List.getD_eq_getElem?_getD]

theorem getD_concat_of_ne {α : Type*} {l : List α} (a d : α) {n : Nat} (h : n ≠ l.length) :
    (l ++ [a]).getD n d = l.getD n d := by
  rcases Nat.lt_or_gt_of_ne h with hlt | hgt
  · exact List.getD_append _ _ _ _ hlt
  · rw [List.getD_eq_default _ _ (by rw [List.length_append, List.length_singleton]; omega),
      List.getD_eq_default _ _ (by omega)]

/-- An empty row at the end makes no difference. -/
theorem getD_concat_nil (rows : List (List UInt8)) (n : Nat) :
    (rows ++ [[]]).getD n [] = rows.getD n [] := by
  by_cases hn : n = rows.length
  · rw [hn, getD_concat_self, List.getD_eq_default _ _ le_rfl]
  · exact getD_concat_of_ne _ _ hn

theorem cellOf_nil (col : Nat) : cellOf [] col = blank := rfl

theorem Shows.newLine (h : Shows con above last) : Shows con.newLine (above ++ [last]) [] := by
  have hy := h.y
  have hcells := h.cells
  have hrows : numRows = 25 := rfl
  have hcols : numCols = 80 := rfl
  unfold Console.newLine
  split_ifs with hbottom
  · refine ⟨rfl, Nat.zero_le _, ?_, fun row hrow col hcol => ?_⟩
    · simp only [List.length_append, List.length_singleton]
      omega
    · simp only
      rw [shiftRows_cell _ (by rw [hrows, hcols]; omega), getD_concat_nil, List.length_append,
        List.length_singleton]
      split_ifs with hlast
      · rw [show numCols * row + col + numCols = numCols * (row + 1) + col by rw [hcols]; omega,
          hcells (row + 1) (by rw [hrows, hcols] at *; omega) col hcol]
        congr 2
        omega
      · rw [List.getD_eq_default _ _ (by
          rw [List.length_append, List.length_singleton]
          rw [hrows, hcols] at *
          omega), cellOf_nil]
  · refine ⟨rfl, Nat.zero_le _, ?_, fun row hrow col hcol => ?_⟩
    · simp only [List.length_append, List.length_singleton]
      omega
    · rw [getD_concat_nil, List.length_append, List.length_singleton, hcells row hrow col hcol]
      congr 2
      omega

theorem Shows.putChar (h : Shows con above last) (hroom : last.length < numCols) (c : UInt8) :
    Shows (con.putChar c) above (last ++ [c]) := by
  have hx := h.x
  have hy := h.y
  have hrows : numRows = 25 := rfl
  have hcols : numCols = 80 := rfl
  refine ⟨?_, ?_, hy, fun row hrow col hcol => ?_⟩
  · simp only [Console.putChar, List.length_append, List.length_singleton, hx]
  · simp only [List.length_append, List.length_singleton]
    omega
  · simp only [Console.putChar]
    rw [cell_setCell, h.cells row hrow col hcol]
    by_cases hrowy : row = con.y
    · have hidx : above.length - (numRows - 1) + row = above.length := by omega
      rw [hidx, getD_concat_self, getD_concat_self]
      unfold cellOf
      by_cases hcolx : col = last.length
      · rw [if_pos (by rw [hrowy, hcolx, hx]), hcolx, getD_concat_self]
      · rw [if_neg (by rw [hrowy]; omega), getD_concat_of_ne _ _ hcolx]
    · have hidx : above.length - (numRows - 1) + row ≠ above.length := by omega
      have hcell : numCols * row + col ≠ numCols * con.y + con.x := by
        rw [hcols] at hcol hroom ⊢
        omega
      rw [if_neg hcell, getD_concat_of_ne _ _ hidx, getD_concat_of_ne _ _ hidx]

/-- `putc` keeps the screen in step with the layout. -/
theorem Shows.putc {text : List UInt8} (h : Shows con above last)
    (hrows : layout text = above ++ [last]) (c : UInt8) :
    ∃ above' last', layout (text ++ [c]) = above' ++ [last'] ∧ Shows (con.putc c) above' last' := by
  obtain ⟨above0, last0, hrows0, hconcat⟩ :=
    TextRows.rows_concat isBreak (by decide : 0 < numCols) text
  obtain ⟨rfl, hlast⟩ := List.append_inj' (hrows0.symm.trans hrows) rfl
  obtain rfl := List.singleton_inj.1 hlast
  have hlayout := hconcat c
  rw [putc_eq h.onScreen]
  by_cases hbreak : c = 10 ∨ c = 13
  · rw [if_pos hbreak]
    rw [if_pos (by simpa [isBreak] using hbreak)] at hlayout
    exact ⟨_, _, hlayout, h.newLine⟩
  · rw [if_neg hbreak]
    rw [if_neg (by simpa [isBreak] using hbreak)] at hlayout
    by_cases hroom : last0.length < numCols
    · rw [if_pos hroom] at hlayout
      rw [if_neg (by rw [h.x]; omega)]
      exact ⟨_, _, hlayout, h.putChar hroom c⟩
    · rw [if_neg hroom] at hlayout
      rw [if_pos (by rw [h.x]; omega)]
      exact ⟨_, _, hlayout, h.newLine.putChar (by decide) c⟩

theorem clear_shows (con : Console) : Shows con.clear [] [] where
  x := rfl
  x_le := Nat.zero_le _
  y := rfl
  cells row hrow col hcol := by
    rw [clear_cell con (by unfold numRows numCols at *; omega), List.nil_append, ← List.nil_append [[]],
      getD_concat_nil]
    rfl

/-- Everything printed since `clear` is laid out. -/
theorem print_shows (con : Console) (text : List UInt8) :
    ∃ above last, layout text = above ++ [last] ∧ Shows (con.clear.print text) above last := by
  induction text using List.reverseRecOn with
  | nil => exact ⟨[], [], by decide, clear_shows con⟩
  | append_singleton text c ih =>
      obtain ⟨above, last, hrows, hshows⟩ := ih
      obtain ⟨above', last', hrows', hshows'⟩ := hshows.putc hrows c
      refine ⟨above', last', hrows', ?_⟩
      rwa [print, List.foldl_append]

theorem Shows.displays {text : List UInt8} (h : Shows con above last)
    (hrows : layout text = above ++ [last]) : Displays con text := by
  have hvisible : visibleRows text = (above ++ [last]).drop (above.length - (numRows - 1)) := by
    rw [visibleRows, hrows, List.length_append, List.length_singleton]
    congr 1
  refine ⟨fun row hrow col hcol => ?_, ?_, ?_⟩
  · rw [h.cells row hrow col hcol, hvisible]
    simp only [List.getD_eq_getElem?_getD, List.getElem?_drop]
  · rw [hvisible, h.x, List.drop_append_of_le_length (by omega)]
    simp
  · rw [hvisible, h.y, List.length_drop, List.length_append, List.length_singleton]
    omega

end Console

open Kernel

/-! ## `terminal_write` -/

theorem console_setConsole (k : Kernel) (con : Console) : (k.setConsole con).console = con := by
  have hvideo : (fun off => (k.setConsole con).mem (videoAddr + off)) = con.video := by
    funext off
    simp [setConsole]
  have hx : (k.setConsole con).screenX (k.setConsole con).currTerminal = con.x :=
    Function.update_self ..
  have hy : (k.setConsole con).screenY (k.setConsole con).currTerminal = con.y :=
    Function.update_self ..
  unfold console
  rw [hvideo, hx, hy]

/-- The bytes a series of `terminal_write` calls is given, each with a buffer and a length. -/
def written (calls : List (Bytes × Int)) : List UInt8 :=
  calls.flatMap fun call => (List.range call.2.toNat).map call.1

/-- A series of `terminal_write` calls. -/
def writeAll (k : Kernel) (calls : List (Bytes × Int)) : Kernel :=
  calls.foldl (fun k call => (terminalWrite k call.1 call.2).1) k

theorem writeAll_console (k : Kernel) (calls : List (Bytes × Int)) :
    (writeAll k calls).console = k.console.print (written calls) := by
  induction calls generalizing k with
  | nil => rfl
  | cons call calls ih =>
      have hfirst : (terminalWrite k call.1 call.2).1.console
          = k.console.print ((List.range call.2.toNat).map call.1) := console_setConsole _ _
      change (writeAll (terminalWrite k call.1 call.2).1 calls).console = _
      have htext : written (call :: calls)
          = (List.range call.2.toNat).map call.1 ++ written calls := List.flatMap_cons
      rw [ih, hfirst, htext, Console.print, Console.print, Console.print, List.foldl_append]

/-- The output since `clear`, in one call or in many, is on the screen as the layout has it. -/
theorem terminalWrite_displays (k : Kernel) (text : List UInt8) (calls : List (Bytes × Int))
    (hcalls : written calls = text) :
    (writeAll (k.setConsole k.console.clear) calls).console.Displays text := by
  obtain ⟨above, last, hrows, hshows⟩ := Console.print_shows k.console text
  rw [writeAll_console, console_setConsole, hcalls]
  exact hshows.displays hrows

theorem terminalWrite_displays_two :
    written [(cstr (ascii "ab\n"), 3), (cstr (ascii "cd"), 2)] = ascii "ab\ncd" ∧
      Console.visibleRows (ascii "ab\ncd") = [ascii "ab", ascii "cd"] ∧
      (writeAll (smallMachine.setConsole smallMachine.console.clear)
        [(cstr (ascii "ab\n"), 3), (cstr (ascii "cd"), 2)]).console.Displays (ascii "ab\ncd") :=
  ⟨by decide, by decide, terminalWrite_displays _ _ _ (by decide)⟩

end BaseOs
