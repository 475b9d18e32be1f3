import BaseOs.Paging

set_option autoImplicit false

/-! # The text screen (`lib.c`)

`clear`, `putc`, `scroll`, `backspace` and the printing built on them, for one terminal: the bytes
at `video_mem` (by offset) and that terminal's cursor. The two coordinates never go below zero, so
they are natural numbers. The hardware cursor (`update_cursor`) is not part of the model. -/

namespace BaseOs

def numCols : Nat := 80
def numRows : Nat := 25
def attrib : UInt8 := 0x7

/-- What `putc` and its relatives work on: video memory and the cursor of the current terminal. -/
structure Console where
  video : Bytes
  x : Nat
  y : Nat

namespace Console

/-- Store a character and an attribute at a cell. -/
def setCell (video : Bytes) (cell : Nat) (c attr : UInt8) : Bytes :=
  Function.update (Function.update video (cell * 2) c) (cell * 2 + 1) attr

/-- `clear`. -/
def clear (con : Console) : Console where
  video := (List.range (numRows * numCols)).foldl (fun v i => setCell v i 32 attrib) con.video
  x := 0
  y := 0

/-- The loops of `scroll`: every row takes the row below it, column by column, and the last row is
    blanked. -/
def shiftRows (video : Bytes) : Bytes :=
  let shifted := (List.range numCols).foldl (fun v i =>
    (List.range (numRows - 1)).foldl (fun w j =>
      setCell w (numCols * j + i) (w ((numCols * (j + 1) + i) * 2))
        (w ((numCols * (j + 1) + i) * 2 + 1))) v) video
  (List.range numCols).foldl (fun v i => setCell v (numCols * (numRows - 1) + i) 32 attrib) shifted

-- the two call each other at most once: `putc` scrolls only on the last row, `scroll` prints a
-- newline only above it
mutual

/-- `putc`. -/
def putc (con : Console) (c : UInt8) : Console :=
  if c = 10 ∨ c = 13 then
    if con.y + 1 ≥ numRows then scroll { con with x := 0 }
    else { con with x := 0, y := con.y + 1 }
  else if con.x ≥ numCols then
    if con.y + 1 ≥ numRows then
      let con' := scroll { con with x := 0 }
      { con' with
        video := setCell con'.video (numCols * con'.y + con'.x) c attrib
        x := con'.x + 1 }
    else
      { video := setCell con.video (numCols * (con.y + 1)) c attrib
        x := 1
        y := con.y + 1 }
  else
    { con with
      video := setCell con.video (numCols * con.y + con.x) c attrib
      x := con.x + 1 }
termination_by min 1 (con.y + 2 - numRows)
decreasing_by all_goals (simp only [numRows] at *; omega)

/-- `scroll`: shift the screen when the cursor is on the last row, else print a newline. -/
def scroll (con : Console) : Console :=
  if con.y ≥ numRows - 1 then { con with video := shiftRows con.video, x := 0 }
  else putc con 10
termination_by min 1 (numRows - 1 - con.y)
decreasing_by (simp only [numRows] at *; omega)

end

/-- `backspace`. -/
def backspace (con : Console) : Console :=
  if con.x = 0 ∧ con.y > 0 then
    { video := setCell con.video (numCols * (con.y - 1) + (numCols - 1)) 32 attrib
      x := numCols - 1
      y := con.y - 1 }
  else if con.x = 0 ∧ con.y = 0 then con
  else
    { con with
      video := setCell con.video (numCols * con.y + (con.x - 1)) 32 attrib
      x := con.x - 1 }

/-- Print bytes one after the other: `puts` of a string, or the loop of `terminal_write`. -/
def print (con : Console) (s : List UInt8) : Console := s.foldl putc con

end Console

/-! ## Numerals in messages -/

/-- `lookup[i]` of `itoa`. -/
def digitChar (i : Nat) : UInt8 :=
  (ascii "0123456789ABCDEFGHIJKLMNOPQRSTUVWXYZ").getD i 0

/-- The digit loop of `itoa`: lowest place value first. -/
def itoaDigits (radix : Nat) : Nat → Nat → List UInt8
  | 0, _ => []
  | fuel + 1, newval =>
    if newval > 0 then digitChar (newval % radix) :: itoaDigits radix fuel (newval / radix) else []

/-- `itoa`, as the characters of the string it builds. A 32-bit value has at most 32 digits. -/
def itoa (value : UInt32) (radix : Nat) : List UInt8 :=
  if value = 0 then ascii "0" else (itoaDigits radix 32 value.toNat).reverse

end BaseOs
