import BaseOs.Console

set_option autoImplicit false

/-! # The cursor stays on the screen

`putc` writes where the cursor is, without looking at the end of video memory. It is enough that the
cursor stays within the screen: column 80 is allowed, it stands for the line break before the next
character. Every routine keeps it there and writes only the 4000 bytes of the screen (`Keeps`). -/

namespace BaseOs

namespace Console

/-- The cursor is on the screen, or just past the end of a row. -/
structure OnScreen (con : Console) : Prop where
  x_le : con.x ≤ numCols
  y_lt : con.y < numRows

/-- The bytes of the text screen. -/
def screenBytes : Nat := 4000

/-- What a console routine does besides changing the screen: nothing, and the cursor is on the screen
    again. -/
structure Keeps (con con' : Console) : Prop where
  onScreen : con'.OnScreen
  video : ∀ off, screenBytes ≤ off → con'.video off = con.video off

variable {con con' : Console}

theorem Keeps.trans {con'' : Console} (h : Keeps con con') (h' : Keeps con' con'') :
    Keeps con con'' where
  onScreen := h'.onScreen
  video off hoff := (h'.video off hoff).trans (h.video off hoff)

theorem setCell_of_le {video : Bytes} {cell off : Nat} (c attr : UInt8)
    (hcell : cell < numRows * numCols) (hoff : screenBytes ≤ off) :
    setCell video cell c attr off = video off := by
  unfold numRows numCols at hcell
  unfold screenBytes at hoff
  unfold setCell
  rw [Function.update_of_ne (by omega), Function.update_of_ne (by omega)]

/-- A loop that only stores into cells of the screen. -/
theorem foldl_video {α : Type*} {f : Bytes → α → Bytes} {l : List α} {off : Nat}
    (hf : ∀ v, ∀ a ∈ l, f v a off = v off) (video : Bytes) : l.foldl f video off = video off := by
  induction l generalizing video with
  | nil => rfl
  | cons a l ih =>
      rw [List.foldl_cons, ih fun v b hb => hf v b (List.mem_cons_of_mem a hb)]
      exact hf video a List.mem_cons_self

theorem clear_keeps (con : Console) : Keeps con con.clear where
  onScreen := ⟨Nat.zero_le _, by simp [clear, numRows]⟩
  video off hoff := by
    simp only [clear]
    rw [foldl_video]
    intro v i hi
    exact setCell_of_le _ _ (List.mem_range.1 hi) hoff

theorem shiftRows_of_le (video : Bytes) {off : Nat} (hoff : screenBytes ≤ off) :
    shiftRows video off = video off := by
  unfold shiftRows
  refine (foldl_video (fun v i hi => ?_) _).trans (foldl_video (fun v i hi => ?_) video)
  · have hi' := List.mem_range.1 hi
    refine setCell_of_le _ _ ?_ hoff
    unfold numCols at hi' ⊢
    unfold numRows
    omega
  · have hi' := List.mem_range.1 hi
    refine foldl_video (fun w j hj => ?_) v
    have hj' := List.mem_range.1 hj
    refine setCell_of_le _ _ ?_ hoff
    unfold numCols at hi' ⊢
    unfold numRows at hj' ⊢
    omega

/-- `scroll` on the last row. -/
theorem scroll_last (h : con.y = numRows - 1) :
    con.scroll = { con with video := shiftRows con.video, x := 0 } := by
  rw [scroll, if_pos (by omega)]

theorem putc_keeps (h : con.OnScreen) (c : UInt8) : Keeps con (con.putc c) := by
  obtain ⟨hx, hy⟩ := h
  have hrows : numRows = 25 := rfl
  have hcols : numCols = 80 := rfl
  rw [putc]
  split_ifs with hnewline hbottom hwrap hbottom
  · have hlast : con.y = numRows - 1 := by omega
    rw [@scroll_last { con with x := 0 } hlast]
    exact ⟨⟨Nat.zero_le _, hy⟩, fun off hoff => shiftRows_of_le _ hoff⟩
  · exact ⟨⟨Nat.zero_le _, by simp only; omega⟩, fun _ _ => rfl⟩
  · have hlast : con.y = numRows - 1 := by omega
    simp only [@scroll_last { con with x := 0 } hlast]
    refine ⟨⟨by simp only; omega, hy⟩, fun off hoff => ?_⟩
    exact (setCell_of_le _ _ (by simp only [hrows, hcols]; omega) hoff).trans
      (shiftRows_of_le _ hoff)
  · refine ⟨⟨by simp only; omega, by simp only; omega⟩, fun off hoff => ?_⟩
    exact setCell_of_le _ _ (by simp only [hrows, hcols]; omega) hoff
  · refine ⟨⟨by simp only; omega, hy⟩, fun off hoff => ?_⟩
    exact setCell_of_le _ _ (by simp only [hrows, hcols]; omega) hoff

theorem scroll_keeps (h : con.OnScreen) : Keeps con con.scroll := by
  have hy := h.y_lt
  by_cases hlast : con.y = numRows - 1
  · rw [scroll_last hlast]
    exact ⟨⟨Nat.zero_le _, hy⟩, fun off hoff => shiftRows_of_le _ hoff⟩
  · rw [scroll, if_neg (by omega)]
    exact putc_keeps h 10

theorem backspace_keeps (h : con.OnScreen) : Keeps con con.backspace := by
  obtain ⟨hx, hy⟩ := h
  have hrows : numRows = 25 := rfl
  have hcols : numCols = 80 := rfl
  unfold backspace
  split_ifs with hedge horigin
  · refine ⟨⟨by simp only; omega, by simp only; omega⟩, fun off hoff => ?_⟩
    exact setCell_of_le _ _ (by simp only [hrows, hcols]; omega) hoff
  · exact ⟨⟨hx, hy⟩, fun _ _ => rfl⟩
  · refine ⟨⟨by simp only; omega, hy⟩, fun off hoff => ?_⟩
    exact setCell_of_le _ _ (by simp only [hrows, hcols]; omega) hoff

theorem print_keeps (h : con.OnScreen) (s : List UInt8) : Keeps con (con.print s) := by
  induction s generalizing con with
  | nil => exact ⟨h, fun _ _ => rfl⟩
  | cons c s ih =>
      have hput := putc_keeps h c
      exact hput.trans (ih hput.onScreen)

end Console

end BaseOs
