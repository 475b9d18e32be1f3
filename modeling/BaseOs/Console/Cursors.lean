import BaseOs.Console.Cells
import BaseOs.Keyboard
import BaseOs.Lib.Runs

set_option autoImplicit false

/-! # The cursors of all terminals (`lib.c`)

`screen_x` and `screen_y` are signed, `putc` and `backspace` turn them into an address without looking
at the end of video memory, and `putc` and `scroll` call each other. Here the coordinates are integers,
one pair for every terminal, the offset of every store is written down, and the calls of the two
routines are counted by depth. `run_bounded` says that neither the cursors nor the stores ever leave the
screen, whatever the routines are called with, and that two calls inside each other are all there are.
Under the bounds the natural numbers of `Console` are the same thing (`toConsole`). The hardware cursor
is not part of the model. -/

namespace BaseOs

/-- What the routines work on: video memory by offset from `video_mem`, the cursor of every terminal
    and `curr_terminal`. `stored` are the offsets of all stores so far, the last one first. -/
structure Screens where
  video : Int → UInt8
  screenX : Terminal → Int
  screenY : Terminal → Int
  currTerminal : Terminal
  stored : List Int

namespace Screens

/-! ## The routines -/

section Routines

variable (s : Screens)

/-- `screen_x[curr_terminal]`. -/
def x : Int := s.screenX s.currTerminal

/-- `screen_y[curr_terminal]`. -/
def y : Int := s.screenY s.currTerminal

def setX (n : Int) : Screens := { s with screenX := Function.update s.screenX s.currTerminal n }

def setY (n : Int) : Screens := { s with screenY := Function.update s.screenY s.currTerminal n }

/-- Store a byte at an offset from `video_mem`. -/
def store (off : Int) (b : UInt8) : Screens :=
  { s with video := Function.update s.video off b, stored := off :: s.stored }

/-- Store a character and an attribute at a cell. -/
def setCell (cell : Int) (c attr : UInt8) : Screens :=
  (s.store (cell * 2) c).store (cell * 2 + 1) attr

/-- The cell at row `y`, column `x`. -/
def cellAt (y x : Int) : Int := numCols * y + x

/-- `clear`. -/
def clear : Screens :=
  let blanked := (List.range (numRows * numCols)).foldl (fun s (i : Nat) => s.setCell i 32 attrib) s
  (blanked.setX 0).setY 0

/-- The body of the first loops of `scroll`: a cell takes the cell below it. -/
def copyCell (i j : Nat) : Screens :=
  let s' := s.store (cellAt j i * 2) (s.video (cellAt (j + 1) i * 2))
  s'.store (cellAt j i * 2 + 1) (s'.video (cellAt (j + 1) i * 2 + 1))

/-- The loops of `scroll`. -/
def shiftRows : Screens :=
  let shifted := (List.range numCols).foldl (fun s i =>
    (List.range (numRows - 1)).foldl (fun s j => s.copyCell i j) s) s
  (List.range numCols).foldl (fun s (i : Nat) => s.setCell (cellAt (numRows - 1) i) 32 attrib) shifted

-- `depth` bounds how many calls of the two are inside each other
mutual

/-- `putc`. -/
def putc : Nat → Screens → UInt8 → Option Screens
  | 0, _, _ => none
  | depth + 1, s, c =>
    if c = 10 ∨ c = 13 then
      let s := (s.setY (s.y + 1)).setX 0
      if s.y ≥ numRows then scroll depth (s.setY (s.y - 1)) else some s
    else
      let wrapped :=
        if s.x ≥ numCols then
          let s := s.setX 0
          let s := s.setY (s.y + 1)
          if s.y ≥ numRows then scroll depth (s.setY (s.y - 1)) else some s
        else some s
      wrapped.map fun s =>
        let s := s.setCell (cellAt s.y s.x) c attrib
        s.setX (s.x + 1)

/-- `scroll`. -/
def scroll : Nat → Screens → Option Screens
  | 0, _ => none
  | depth + 1, s =>
    if s.y ≥ numRows - 1 then some (s.shiftRows.setX 0)
    else putc depth s 10

end

/-- `backspace`. -/
def backspace : Screens :=
  if s.x = 0 ∧ s.y > 0 then
    let s := (s.setY (s.y - 1)).setX (numCols - 1)
    s.setCell (cellAt s.y s.x) 32 attrib
  else if s.x = 0 ∧ s.y = 0 then s
  else
    let s := s.setX (s.x - 1)
    s.setCell (cellAt s.y s.x) 32 attrib

end Routines

/-- A string in memory, and a place where it has a NUL. -/
structure CString where
  bytes : Bytes
  nul : Nat
  bytes_nul : bytes nul = 0

/-- The loop of `puts` from `index` on, which is what it returns in the end. -/
def putsFrom (depth : Nat) (str : Bytes) : Nat → Nat → Screens → Option (Screens × Nat)
  | 0, _, _ => none
  | fuel + 1, index, s =>
    if str index ≠ 0 then
      (putc depth s (str index)).bind fun s => putsFrom depth str fuel (index + 1) s
    else some (s, index)

/-- `puts`. The NUL ends the loop. -/
def puts (depth : Nat) (s : Screens) (str : CString) : Option (Screens × Nat) :=
  putsFrom depth str.bytes (str.nul + 1) 0 s

/-- `terminal_write`. -/
def terminalWrite (depth : Nat) (s : Screens) (buf : Option Bytes) (nbytes : Int) :
    Option (Screens × Int) :=
  match buf with
  | none => some (s, -1)
  | some buffer =>
    ((List.range nbytes.toNat).foldlM (fun s i => putc depth s (buffer i)) s).map fun s =>
      (s, nbytes.toNat)

/-- The calls of the routines, and the switches between them. -/
inductive Op
  | putc (c : UInt8)
  | puts (str : CString)
  | terminalWrite (buf : Option Bytes) (nbytes : Int)
  | backspace
  /-- As `handle_enter` calls it. -/
  | scroll
  | clear
  /-- Another terminal is on the screen, with `page` in video memory. -/
  | switchTo (t : Terminal) (page : Int → UInt8)

/-- One call. -/
def next (depth : Nat) (s : Screens) : Op → Option Screens
  | .putc c => putc depth s c
  | .puts str => (puts depth s str).map Prod.fst
  | .terminalWrite buf nbytes => (terminalWrite depth s buf nbytes).map Prod.fst
  | .backspace => some s.backspace
  | .scroll => scroll depth s
  | .clear => some s.clear
  | .switchTo t page => some { s with currTerminal := t, video := page }

/-- The cursors as the loader leaves them. -/
def start (video : Int → UInt8) (t : Terminal) : Screens where
  video := video
  screenX := fun _ => 0
  screenY := fun _ => 0
  currTerminal := t
  stored := []

/-! ## Reading back -/

variable {s s' : Screens} {depth : Nat} {m n off cell : Int} {b c attr : UInt8}

@[simp]
theorem x_setX (s : Screens) (n : Int) : (s.setX n).x = n := Function.update_self _ _ _

@[simp]
theorem y_setX (s : Screens) (n : Int) : (s.setX n).y = s.y := rfl

@[simp]
theorem x_setY (s : Screens) (n : Int) : (s.setY n).x = s.x := rfl

@[simp]
theorem y_setY (s : Screens) (n : Int) : (s.setY n).y = n := Function.update_self _ _ _

@[simp]
theorem x_setCell (s : Screens) (cell : Int) (c attr : UInt8) : (s.setCell cell c attr).x = s.x := rfl

@[simp]
theorem y_setCell (s : Screens) (cell : Int) (c attr : UInt8) : (s.setCell cell c attr).y = s.y := rfl

theorem setX_setY (s : Screens) (m n : Int) : (s.setY n).setX m = (s.setX m).setY n := rfl

@[simp]
theorem setY_setY (s : Screens) (m n : Int) : (s.setY m).setY n = s.setY n := by
  simp only [setY, Function.update_idem]

@[simp]
theorem setY_y (s : Screens) : s.setY s.y = s := by
  simp only [setY, y, Function.update_eq_self]

/-! ## The calls of `putc` and `scroll` end -/

/-- The line break of `putc`, also the one that is due behind the last column. -/
def newLine (s : Screens) : Screens :=
  if s.y + 1 ≥ numRows then (s.setX 0).shiftRows.setX 0 else (s.setX 0).setY (s.y + 1)

/-- A character at the cursor. -/
def putChar (s : Screens) (c : UInt8) : Screens :=
  (s.setCell (cellAt s.y s.x) c attrib).setX (s.x + 1)

/-- `scroll` on the last row. -/
theorem scroll_last (depth : Nat) (hlast : s.y ≥ numRows - 1) :
    scroll (depth + 1) s = some (s.shiftRows.setX 0) := by
  rw [scroll, if_pos hlast]

/-- The next row, and `scroll` if it is past the last one: then `scroll` does not call `putc`. -/
theorem nextRow_eq (depth : Nat) (s : Screens) :
    (if s.y + 1 ≥ numRows then scroll (depth + 1) (s.setX 0) else some ((s.setX 0).setY (s.y + 1)))
      = some s.newLine := by
  unfold newLine
  split_ifs with hrows
  · exact scroll_last depth (by rw [y_setX]; omega)
  · rfl

theorem putc_eq (depth : Nat) (s : Screens) (c : UInt8) :
    putc (depth + 2) s c = some (if c = 10 ∨ c = 13 then s.newLine
      else if s.x ≥ numCols then s.newLine.putChar c else s.putChar c) := by
  have hrow := nextRow_eq depth s
  rw [putc]
  simp only [setX_setY, y_setX, y_setY, setY_setY, add_sub_cancel_right]
  have hback : (s.setX 0).setY s.y = s.setX 0 := setY_y (s.setX 0)
  rw [hback, hrow]
  split_ifs with hbreak hwrap
  · rfl
  · rfl
  · rfl

/-- Above the last row `scroll` calls `putc`, which does not call it back. -/
theorem scroll_eq (depth : Nat) (s : Screens) :
    scroll (depth + 2) s = some (if s.y ≥ numRows - 1 then s.shiftRows.setX 0 else s.newLine) := by
  rw [scroll]
  split_ifs with hlast
  · rfl
  · have hroom : ¬ s.y + 1 ≥ numRows := by omega
    rw [putc, if_pos (Or.inl rfl)]
    simp only [setX_setY, y_setY]
    rw [if_neg hroom, newLine, if_neg hroom]

/-! ## The bounds -/

/-- Every cursor is on the screen or just past the end of a row, and no store went outside the bytes of
    the screen. -/
structure Bounded (s : Screens) : Prop where
  x_mem : ∀ t, 0 ≤ s.screenX t ∧ s.screenX t ≤ 80
  y_mem : ∀ t, 0 ≤ s.screenY t ∧ s.screenY t ≤ 24
  stored : ∀ off ∈ s.stored, 0 ≤ off ∧ off < 4000

namespace Bounded

theorem setX (h : Bounded s) (hn : 0 ≤ n ∧ n ≤ 80) : Bounded (s.setX n) where
  x_mem := (Function.forall_update_iff _ fun _ i => 0 ≤ i ∧ i ≤ 80).2 ⟨hn, fun t _ => h.x_mem t⟩
  y_mem := h.y_mem
  stored := h.stored

theorem setY (h : Bounded s) (hn : 0 ≤ n ∧ n ≤ 24) : Bounded (s.setY n) where
  x_mem := h.x_mem
  y_mem := (Function.forall_update_iff _ fun _ i => 0 ≤ i ∧ i ≤ 24).2 ⟨hn, fun t _ => h.y_mem t⟩
  stored := h.stored

theorem store (h : Bounded s) (hoff : 0 ≤ off ∧ off < 4000) (b : UInt8) : Bounded (s.store off b) where
  x_mem := h.x_mem
  y_mem := h.y_mem
  stored := List.forall_mem_cons.2 ⟨hoff, h.stored⟩

theorem setCell (h : Bounded s) (hcell : 0 ≤ cell ∧ cell < 2000) (c attr : UInt8) :
    Bounded (s.setCell cell c attr) :=
  (h.store (by omega) c).store (by omega) attr

/-- A loop whose rounds keep the bounds. -/
theorem foldl {β : Type*} {f : Screens → β → Screens} {l : List β} (h : Bounded s)
    (hf : ∀ s, Bounded s → ∀ b ∈ l, Bounded (f s b)) : Bounded (l.foldl f s) :=
  List.foldlRecOn l f h hf

theorem clear (h : Bounded s) : Bounded s.clear := by
  unfold Screens.clear
  refine (setX (h.foldl fun s hs i hi => hs.setCell ?_ 32 attrib) (by omega)).setY (by omega)
  have hi' := List.mem_range.1 hi
  unfold numRows numCols at hi'
  omega

/-- The offsets of a cell, row by row, are those of its number. -/
theorem cellAt_mem (hy : 0 ≤ m ∧ m ≤ 24) (hx : 0 ≤ n ∧ n < 80) :
    0 ≤ cellAt m n ∧ cellAt m n < 2000 := by
  have hcell : cellAt m n = 80 * m + n := rfl
  omega

theorem copyCell {i j : Nat} (h : Bounded s) (hi : i < 80) (hj : j < 24) : Bounded (s.copyCell i j) := by
  have hcell := @cellAt_mem j i (by omega) (by omega)
  exact (h.store (by omega) _).store (by omega) _

theorem shiftRows (h : Bounded s) : Bounded s.shiftRows := by
  refine foldl (foldl h fun s hs i hi => hs.foldl fun s hs j hj => ?_) fun s hs i hi => ?_
  · exact hs.copyCell (List.mem_range.1 hi) (List.mem_range.1 hj)
  · have hi' := List.mem_range.1 hi
    unfold numCols at hi'
    exact hs.setCell (cellAt_mem (by simp [numRows]) (by omega)) 32 attrib

theorem x_cur (h : Bounded s) : 0 ≤ s.x ∧ s.x ≤ 80 := h.x_mem s.currTerminal

theorem y_cur (h : Bounded s) : 0 ≤ s.y ∧ s.y ≤ 24 := h.y_mem s.currTerminal

theorem scrolled (h : Bounded s) : Bounded (s.shiftRows.setX 0) := h.shiftRows.setX (by omega)

theorem newLine (h : Bounded s) : Bounded s.newLine := by
  have hy := h.y_cur
  have hrows : numRows = 25 := rfl
  have hzero : Bounded (s.setX 0) := h.setX (by omega)
  unfold Screens.newLine
  split_ifs with hlast
  · exact hzero.scrolled
  · exact hzero.setY (by omega)

/-- A line break leaves room for a character. -/
theorem x_newLine (s : Screens) : s.newLine.x = 0 := by
  unfold Screens.newLine
  split_ifs
  · exact x_setX _ _
  · exact x_setX s 0

/-- A character may be put anywhere but past the end of a row. -/
theorem putChar (h : Bounded s) (hx : s.x < 80) (c : UInt8) : Bounded (s.putChar c) := by
  have hx' := h.x_cur
  have hcell := cellAt_mem h.y_cur ⟨hx'.1, hx⟩
  exact (h.setCell hcell c attrib).setX (by omega)

theorem putc (h : Bounded s) (depth : Nat) (c : UInt8) :
    ∃ s', putc (depth + 2) s c = some s' ∧ Bounded s' := by
  have hcols : numCols = 80 := rfl
  refine ⟨_, putc_eq depth s c, ?_⟩
  split_ifs with hbreak hwrap
  · exact h.newLine
  · exact h.newLine.putChar (by rw [x_newLine]; omega) c
  · exact h.putChar (by omega) c

theorem scroll (h : Bounded s) (depth : Nat) : ∃ s', scroll (depth + 2) s = some s' ∧ Bounded s' := by
  refine ⟨_, scroll_eq depth s, ?_⟩
  split_ifs
  · exact h.scrolled
  · exact h.newLine

theorem backspace (h : Bounded s) : Bounded s.backspace := by
  have hx := h.x_cur
  have hy := h.y_cur
  have hcols : numCols = 80 := rfl
  unfold Screens.backspace
  split_ifs with hedge horigin
  · -- from the left edge to the last column of the row above
    have hback : Bounded ((s.setY (s.y - 1)).setX (numCols - 1)) :=
      (h.setY (by omega)).setX (by omega)
    refine hback.setCell (cellAt_mem ?_ ?_) 32 attrib
    · rw [y_setX, y_setY]
      omega
    · rw [x_setX]
      omega
  · exact h
  · -- from past the end of a row too: then the last column is blanked
    have hback : Bounded (s.setX (s.x - 1)) := h.setX (by omega)
    refine hback.setCell (cellAt_mem hback.y_cur ?_) 32 attrib
    rw [x_setX]
    omega

/-- `puts` ends at the NUL at the latest. -/
theorem putsFrom (depth : Nat) (str : CString) {fuel index : Nat} (h : Bounded s)
    (hfuel : index + fuel = str.nul + 1) (hindex : index ≤ str.nul) :
    ∃ r, putsFrom (depth + 2) str.bytes fuel index s = some r ∧ Bounded r.1 := by
  induction fuel generalizing index s with
  | zero => omega
  | succ fuel ih =>
      rw [Screens.putsFrom]
      split_ifs with hchar
      · obtain ⟨s1, hput, hs1⟩ := h.putc depth (str.bytes index)
        have hne : index ≠ str.nul := by
          rintro rfl
          exact hchar str.bytes_nul
        rw [hput, Option.bind_some]
        exact ih hs1 (by omega) (by omega)
      · exact ⟨_, rfl, h⟩

theorem foldlM_putc {β : Type*} (depth : Nat) (f : β → UInt8) (h : Bounded s) (l : List β) :
    ∃ s', l.foldlM (fun s b => Screens.putc (depth + 2) s (f b)) s = some s' ∧ Bounded s' := by
  induction l generalizing s with
  | nil => exact ⟨s, rfl, h⟩
  | cons b l ih =>
      obtain ⟨s1, hput, hs1⟩ := h.putc depth (f b)
      rw [List.foldlM_cons, hput]
      exact ih hs1

/-- One call. -/
theorem next (h : Bounded s) (depth : Nat) (op : Op) :
    ∃ s', next (depth + 2) s op = some s' ∧ Bounded s' := by
  cases op with
  | putc c => exact h.putc depth c
  | puts str =>
      obtain ⟨r, hr, hbounded⟩ := h.putsFrom depth str (Nat.zero_add _) (Nat.zero_le _)
      exact ⟨r.1, by rw [Screens.next, puts, hr, Option.map_some], hbounded⟩
  | terminalWrite buf nbytes =>
      cases buf with
      | none => exact ⟨s, rfl, h⟩
      | some buffer =>
          obtain ⟨s1, hrun, hs1⟩ := h.foldlM_putc depth buffer (List.range nbytes.toNat)
          refine ⟨s1, ?_, hs1⟩
          simp only [Screens.next, Screens.terminalWrite, hrun, Option.map_some]
  | backspace => exact ⟨s.backspace, rfl, h.backspace⟩
  | scroll => exact h.scroll depth
  | clear => exact ⟨s.clear, rfl, h.clear⟩
  | switchTo t page => exact ⟨_, rfl, ⟨h.x_mem, h.y_mem, h.stored⟩⟩

end Bounded

theorem start_bounded (video : Int → UInt8) (t : Terminal) : Bounded (start video t) where
  x_mem _ := by simp [start]
  y_mem _ := by simp [start]
  stored := by simp [start]

/-! ## Runs -/

theorem putc_depth (depth : Nat) : putc (depth + 2) = putc 2 := by
  funext s c
  rw [putc_eq depth s c, putc_eq 0 s c]

theorem scroll_depth (depth : Nat) : scroll (depth + 2) = scroll 2 := by
  funext s
  rw [scroll_eq depth s, scroll_eq 0 s]

theorem putsFrom_depth (depth : Nat) (str : Bytes) (fuel index : Nat) (s : Screens) :
    putsFrom (depth + 2) str fuel index s = putsFrom 2 str fuel index s := by
  induction fuel generalizing index s with
  | zero => rfl
  | succ fuel ih => simp only [putsFrom, putc_depth, ih]

/-- Two calls inside each other are enough. -/
theorem next_depth (depth : Nat) : next (depth + 2) = next 2 := by
  funext s op
  cases op with
  | putc c => simp only [next, putc_depth]
  | puts str => simp only [next, puts, putsFrom_depth]
  | terminalWrite buf nbytes => simp only [next, terminalWrite, putc_depth]
  | backspace => rfl
  | scroll => simp only [next, scroll_depth]
  | clear => rfl
  | switchTo t page => rfl

/-- From the start on, whatever is called on whatever terminal, every call ends, with the same screens
    for every bound on the calls inside each other from two on, and the bounds hold after each. -/
theorem run_bounded (video : Int → UInt8) (t : Terminal) (ops : List Op) :
    ∃ s', ∀ depth, Runs.run (next (depth + 2)) (start video t) ops = some s' ∧
      Runs.AllStates (next (depth + 2)) Bounded (start video t) ops := by
  have hstart := start_bounded video t
  have hall : Runs.AllSteps (next 2) (fun _ _ => True) (start video t) ops :=
    Runs.allSteps_of_forall (fun _ _ => trivial) _ ops
  have hstep : ∀ s op s', Bounded s → True → next 2 s op = some s' → Bounded s' := by
    intro s op s' hs _ hs'
    obtain ⟨s1, hs1, hbounded⟩ := hs.next 0 op
    obtain rfl := Option.some.inj (hs1.symm.trans hs')
    exact hbounded
  obtain ⟨s', hrun, _⟩ := Runs.run_isSome (fun s op hs _ => Bounded.next hs 0 op) hstart hall
  refine ⟨s', fun depth => ?_⟩
  rw [next_depth]
  exact ⟨hrun, Runs.allStates_of_invariant hstep (fun _ h => h) hstart hall⟩

/-! ## The console of one terminal -/

/-- Video memory from `video_mem` on. -/
def view (s : Screens) : Bytes := fun off => s.video off

/-- The current terminal's console. -/
def toConsole (s : Screens) : Console where
  video := s.view
  x := s.x.toNat
  y := s.y.toNat

theorem Bounded.onScreen (h : Bounded s) : s.toConsole.OnScreen where
  x_le := by
    have hx := h.x_cur
    change s.x.toNat ≤ 80
    omega
  y_lt := by
    have hy := h.y_cur
    change s.y.toNat < 25
    omega

@[simp]
theorem view_setX (s : Screens) (n : Int) : (s.setX n).view = s.view := rfl

@[simp]
theorem view_setY (s : Screens) (n : Int) : (s.setY n).view = s.view := rfl

theorem view_store (s : Screens) (off : Nat) (b : UInt8) :
    (s.store off b).view = Function.update s.view off b :=
  Function.update_comp_eq_of_injective s.video Nat.cast_injective off b

theorem view_setCell (s : Screens) (n : Nat) (c attr : UInt8) :
    (s.setCell n c attr).view = Console.setCell s.view n c attr := by
  have hfirst := view_store s (n * 2) c
  have hsecond := view_store (s.store (n * 2 : Nat) c) (n * 2 + 1) attr
  rw [hfirst] at hsecond
  exact hsecond

theorem cellAt_cast (y x : Nat) : cellAt y x = (numCols * y + x : Nat) := rfl

theorem view_copyCell (s : Screens) (i j : Nat) :
    (s.copyCell i j).view = Console.setCell s.view (numCols * j + i)
      (s.view ((numCols * (j + 1) + i) * 2)) (s.view ((numCols * (j + 1) + i) * 2 + 1)) := by
  -- the attribute is read after the character is stored, but not where it is stored
  have hread : (s.store (cellAt j i * 2) (s.video (cellAt (j + 1) i * 2))).video
      (cellAt (j + 1) i * 2 + 1) = s.video (cellAt (j + 1) i * 2 + 1) :=
    Function.update_of_ne (by omega) _ _
  unfold copyCell
  simp only [hread]
  exact view_setCell s (numCols * j + i) _ _

theorem view_foldl {β : Type*} {f : Screens → β → Screens} {g : Bytes → β → Bytes}
    (h : ∀ s b, (f s b).view = g s.view b) (s : Screens) (l : List β) :
    (l.foldl f s).view = l.foldl g s.view :=
  (List.foldl_hom view fun s b => (h s b).symm).symm

theorem view_shiftRows (s : Screens) : s.shiftRows.view = Console.shiftRows s.view := by
  have hblank := @view_foldl Nat _ (fun v i => Console.setCell v (numCols * (numRows - 1) + i) 32 attrib)
    fun s i => view_setCell s (numCols * (numRows - 1) + i) 32 attrib
  unfold shiftRows Console.shiftRows
  rw [← view_foldl fun s i => view_foldl (fun s j => view_copyCell s i j) s _]
  exact hblank _ _

theorem y_foldl {β : Type*} {f : Screens → β → Screens} (h : ∀ s b, (f s b).y = s.y) (s : Screens)
    (l : List β) : (l.foldl f s).y = s.y := by
  induction l generalizing s with
  | nil => rfl
  | cons b l ih => rw [List.foldl_cons, ih, h]

theorem y_shiftRows (s : Screens) : s.shiftRows.y = s.y := by
  have hcopy : ∀ (s : Screens) (i j : Nat), (s.copyCell i j).y = s.y := fun _ _ _ => rfl
  have hblank : ∀ (s : Screens) (i : Nat), (s.setCell (cellAt (numRows - 1) i) 32 attrib).y = s.y :=
    fun _ _ => rfl
  unfold shiftRows
  simp only
  rw [y_foldl hblank, y_foldl fun s i => y_foldl (fun s j => hcopy s i j) s _]

theorem toConsole_clear (s : Screens) : s.clear.toConsole = s.toConsole.clear := by
  have hview := @view_foldl Nat _ (fun v i => Console.setCell v i 32 attrib)
    (fun s i => view_setCell s i 32 attrib) s (List.range (numRows * numCols))
  unfold clear toConsole Console.clear
  simp only [x_setY, x_setX, y_setY, view_setX, view_setY, Int.toNat_zero]
  rw [hview]

theorem toConsole_scrolled (s : Screens) :
    (s.shiftRows.setX 0).toConsole = { s.toConsole with video := Console.shiftRows s.view, x := 0 } := by
  unfold toConsole
  rw [x_setX, y_setX, view_setX, y_shiftRows, view_shiftRows, Int.toNat_zero]

theorem toConsole_newLine (h : Bounded s) : s.newLine.toConsole = s.toConsole.newLine := by
  have hy := h.y_cur
  have hrow : s.y + 1 ≥ numRows ↔ s.toConsole.y + 1 ≥ numRows := by
    change s.y + 1 ≥ (25 : Nat) ↔ s.y.toNat + 1 ≥ 25
    omega
  have hnext : (s.y + 1).toNat = s.y.toNat + 1 := by omega
  unfold newLine Console.newLine
  by_cases hlast : s.y + 1 ≥ numRows
  · rw [if_pos hlast, if_pos (hrow.1 hlast)]
    exact toConsole_scrolled (s.setX 0)
  · rw [if_neg hlast, if_neg (mt hrow.2 hlast)]
    unfold toConsole
    rw [x_setY, x_setX, y_setY, hnext]
    rfl

theorem toConsole_putChar (h : Bounded s) (c : UInt8) :
    (s.putChar c).toConsole = s.toConsole.putChar c := by
  have hx := h.x_cur
  have hy := h.y_cur
  have hcell : cellAt s.y s.x = (numCols * s.y.toNat + s.x.toNat : Nat) := by
    rw [← cellAt_cast, Int.toNat_of_nonneg hx.1, Int.toNat_of_nonneg hy.1]
  have hnext : (s.x + 1).toNat = s.x.toNat + 1 := by omega
  unfold putChar toConsole Console.putChar
  rw [hcell, x_setX, y_setX, y_setCell, hnext]
  exact congrArg (fun v => Console.mk v _ _) (view_setCell s _ c attrib)

/-- `putc` on natural numbers is `putc`. -/
theorem putc_toConsole (h : Bounded s) (depth : Nat) (c : UInt8) :
    (putc (depth + 2) s c).map toConsole = some (s.toConsole.putc c) := by
  have hx := h.x_cur
  have hwrap : s.x ≥ numCols ↔ s.toConsole.x ≥ numCols := by
    change s.x ≥ (80 : Nat) ↔ s.x.toNat ≥ 80
    omega
  rw [putc_eq, Console.putc_eq h.onScreen, Option.map_some]
  simp only [← hwrap]
  split_ifs
  · rw [toConsole_newLine h]
  · rw [toConsole_putChar h.newLine, toConsole_newLine h]
  · rw [toConsole_putChar h]

/-- `scroll` on natural numbers is `scroll`. -/
theorem scroll_toConsole (h : Bounded s) (depth : Nat) :
    (scroll (depth + 2) s).map toConsole = some s.toConsole.scroll := by
  have hy := h.y_cur
  have hlast : s.y ≥ numRows - 1 ↔ s.toConsole.y ≥ numRows - 1 := by
    change s.y ≥ ((25 : Nat) : Int) - 1 ↔ s.y.toNat ≥ 24
    omega
  rw [scroll_eq, Console.scroll, Option.map_some]
  simp only [← hlast]
  split_ifs
  · exact congrArg some (toConsole_scrolled s)
  · rw [toConsole_newLine h, Console.putc_eq h.onScreen, if_pos (Or.inl rfl)]

/-- `backspace` on natural numbers is `backspace`. -/
theorem backspace_toConsole (h : Bounded s) : s.backspace.toConsole = s.toConsole.backspace := by
  have hx := h.x_cur
  have hy := h.y_cur
  have hxnat : s.toConsole.x = s.x.toNat := rfl
  have hynat : s.toConsole.y = s.y.toNat := rfl
  have hedge : s.x = 0 ∧ s.y > 0 ↔ s.toConsole.x = 0 ∧ s.toConsole.y > 0 := by omega
  have horigin : s.x = 0 ∧ s.y = 0 ↔ s.toConsole.x = 0 ∧ s.toConsole.y = 0 := by omega
  unfold backspace Console.backspace
  simp only [← hedge, ← horigin]
  split_ifs
  · have hcell : cellAt (s.y - 1) (numCols - 1)
        = (numCols * (s.toConsole.y - 1) + (numCols - 1) : Nat) := by
      unfold cellAt numCols
      omega
    have hup : (s.y - 1).toNat = s.toConsole.y - 1 := by omega
    simp only [y_setX, y_setY, x_setX, hcell]
    unfold toConsole
    simp only [view_setCell, view_setX, view_setY, x_setCell, y_setCell, x_setX, y_setX, y_setY, hup]
    rfl
  · rfl
  · have hcell : cellAt s.y (s.x - 1) = (numCols * s.toConsole.y + (s.toConsole.x - 1) : Nat) := by
      unfold cellAt numCols
      omega
    have hback : (s.x - 1).toNat = s.toConsole.x - 1 := by omega
    simp only [y_setX, x_setX, hcell]
    unfold toConsole
    simp only [view_setCell, view_setX, x_setCell, y_setCell, x_setX, y_setX, hback]
    rfl

theorem foldlM_toConsole {β : Type*} (depth : Nat) (f : β → UInt8) (h : Bounded s) (l : List β) :
    (l.foldlM (fun s b => putc (depth + 2) s (f b)) s).map toConsole
      = some (s.toConsole.print (l.map f)) := by
  induction l generalizing s with
  | nil => rfl
  | cons b l ih =>
      obtain ⟨s1, hput, hs1⟩ := h.putc depth (f b)
      have hcon := putc_toConsole h depth (f b)
      rw [hput, Option.map_some, Option.some.injEq] at hcon
      rw [List.foldlM_cons, hput, List.map_cons]
      refine (ih hs1).trans ?_
      rw [hcon]
      rfl

/-- `terminal_write` on natural numbers is `terminal_write`. -/
theorem terminalWrite_toConsole (h : Bounded s) (depth : Nat) (buffer : Bytes) (nbytes : Int) :
    (terminalWrite (depth + 2) s (some buffer) nbytes).map (fun r => r.1.toConsole)
      = some (s.toConsole.print ((List.range nbytes.toNat).map buffer)) := by
  rw [← foldlM_toConsole depth buffer h, terminalWrite, Option.map_map]
  rfl

end Screens

end BaseOs
