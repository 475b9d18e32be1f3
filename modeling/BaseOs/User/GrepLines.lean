import BaseOs.Syscall.Enumeration
import BaseOs.Syscall.Failures
import BaseOs.User.Others
import BaseOs.User.Strings

set_option autoImplicit false

/-! # `grep` (`ece391grep.c`): the lines

The program searches every file of the directory line by line, in an array of 1025 bytes. It reads as much as
fits, searches the complete lines in the array, and moves what is left to the front. At the end of the file
the rest counts as a line. Here is the program, and what one pass over the array does. -/

namespace BaseOs

open Kernel Programs Terminated

/-! ## The program -/

/-- `BUFSIZE`. -/
def grepBufSize : Nat := 1024

/-- The loop over `check` in the line from `lineStart` on, with `n` positions to go. -/
def searchLine (s fname data : Bytes) (sLen lineStart : Nat) : Nat → Nat → Program Unit
  | 0, _ => return ()
  | n + 1, check =>
    if s 0 = data check ∧ ece391Strncmp (fun i => data (check + i)) s sLen = 0 then do
      ece391Fdputs 1 fname 33
      ece391FdputsLit 1 [58]
      ece391Fdputs 1 (fun i => data (lineStart + i)) (grepBufSize + 1)
      ece391FdputsLit 1 [10]
    else searchLine s fname data sLen lineStart n (check + 1)

/-- The variables of the loop over lines. -/
structure LineState where
  data : Bytes
  last : Nat
  lineStart : Nat

/-- One round of the loop over lines. It ends with `data` and `last`. -/
def lineRound (s fname : Bytes) (sLen : Nat) (cnt : Int32) (st : LineState) :
    Program (LineState ⊕ Bytes × Nat) :=
  let lineEnd := Scan.scan (fun i => st.data i != 10) st.lineStart (st.last - st.lineStart)
  if st.data lineEnd ≠ 10 ∧ cnt ≠ 0 ∧ st.lineStart ≠ 0 then
    let data := Function.update st.data lineEnd 0
    return .inr (ece391Strcpy (grepBufSize + 1) data 0 st.lineStart, st.last - st.lineStart)
  else do
    let data := Function.update st.data lineEnd 0
    searchLine s fname data sLen st.lineStart (lineEnd - st.lineStart) st.lineStart
    let lineStart := lineEnd + 1
    if lineStart ≥ st.last then return .inr (data, 0) else return .inl ⟨data, st.last, lineStart⟩

/-- What the loop of `do_one_file` does after a read, with `data` and `last` updated. It goes on with them,
    or ends with 0; it ends with `none` if the loop over lines takes too many rounds. -/
def searchArray (fuel : Nat) (s fname : Bytes) (sLen : Nat) (cnt : Int32) (data : Bytes) (last : Nat) :
    Program (Bytes × Nat ⊕ Option Int32) := do
  let lines ← Prog.iterate (lineRound s fname sLen cnt) fuel ⟨data, last, 0⟩
  match lines with
  | none => return .inr none
  | some st => if cnt = 0 then return .inr (some 0) else return .inl st

/-- One round of the loop of `do_one_file`, with `data` and `last`. It ends with `-1` where the function
    returns. -/
def fileRound (fuel : Nat) (s fname : Bytes) (sLen : Nat) (fd : Int32) (st : Bytes × Nat) :
    Program (Bytes × Nat ⊕ Option Int32) := do
  let answer ← ece391Read fd (fun i => st.1 (st.2 + i)) (toRet (grepBufSize - st.2))
  let cnt := answer.ret
  if cnt = -1 then do
    ece391FdputsLit 1 (ascii "file read failed\n")
    return .inr (some (-1))
  else
    searchArray fuel s fname sLen cnt (fun i => if i < st.2 then st.1 i else answer.buf (i - st.2))
      (st.2 + cnt.toInt.toNat)

/-- `do_one_file`; `data` is the former contents of the local array. -/
def doOneFile (fuel : Nat) (s fname data : Bytes) : Program (Option Int32) := do
  let sLen := ece391Strlen s grepBufSize
  let fd ← ece391Open fname
  if fd = -1 then do
    ece391FdputsLit 1 (ascii "file open failed\n")
    return some (-1)
  else do
    let read ← Prog.iterate (fileRound fuel s fname sLen fd) fuel (data, 0)
    match read.join with
    | none => return none
    | some r =>
      if r ≠ 0 then return some r
      else do
        let closed ← ece391Close fd
        if closed = -1 then do
          ece391FdputsLit 1 (ascii "file close failed\n")
          return some (-1)
        else return some 0

/-- One round of the loop of `main`, with `buf` and the number of files so far; `junk` is what the array of
    `do_one_file` holds when a file is begun. -/
def grepRound (fuel : Nat) (junk : Nat → Bytes) (search : Bytes) (fd : Int32) (st : Bytes × Nat) :
    Program (Bytes × Nat ⊕ Option Int32) := do
  let answer ← ece391Read fd st.1 32
  let cnt := answer.ret
  if cnt = 0 then return .inr (some 0)
  else if cnt = -1 then do
    ece391FdputsLit 1 (ascii "directory entry read failed\n")
    return .inr (some 3)
  else if answer.buf 0 = 46 then return .inl (answer.buf, st.2)
  else do
    let buf := Function.update answer.buf cnt.toInt.toNat 0
    let done ← doOneFile fuel search buf (junk st.2)
    match done with
    | none => return .inr none
    | some r => if r ≠ 0 then return .inr (some 3) else return .inl (buf, st.2 + 1)

/-- `main`; `search` and `buf` are the former contents of its arrays. -/
def grepMain (fuel : Nat) (junk : Nat → Bytes) (search buf : Bytes) : Program (Option Int32) := do
  let args ← ece391Getargs search 1024
  if args.ret ≠ 0 then do
    ece391FdputsLit 1 (ascii "could not read argument\n")
    return some 3
  else do
    let fd ← ece391Open (cstr (ascii "."))
    if fd = -1 then do
      ece391FdputsLit 1 (ascii "directory open failed\n")
      return some 2
    else do
      let r ← Prog.iterate (grepRound fuel junk args.buf fd) fuel (buf, 0)
      return r.join

/-! ## What it is to do -/

/-- A line behind the name of its file. -/
def grepLine (fname line : List UInt8) : List UInt8 := fname ++ 58 :: line ++ [10]

/-- The lines of a text that contain the pattern, each behind the name of the file. -/
def grepText (pat fname text : List UInt8) : List UInt8 :=
  ((text.splitOn 10).filter fun line => decide (pat <:+: line)).flatMap (grepLine fname)

/-- What is written for one line. -/
def grepOne (pat fname line : List UInt8) : List UInt8 := if pat <:+: line then grepLine fname line else []

variable {cfg : Config} {m : Machine} {p : Slot} {i : FdIndex} {table : FdTable} {out : List UInt8}
  {pat fname line text : List UInt8} {s data : Bytes}

/-- A text whose first line is known. -/
theorem grepText_cons (hline : 10 ∉ line) :
    grepText pat fname (line ++ 10 :: text) = grepOne pat fname line ++ grepText pat fname text := by
  have hsplit : (line ++ 10 :: text).splitOn 10 = line :: text.splitOn 10 := by
    rw [List.splitOn_append_cons_of_beq _ _ (beq_self_eq_true _), List.splitOn_eq_singleton hline,
      List.singleton_append]
  rw [grepText, hsplit, List.filter_cons, grepOne]
  by_cases hin : pat <:+: line
  · simp [hin, grepText]
  · simp [hin, grepText]

/-- A text that is one line. -/
theorem grepText_line (hline : 10 ∉ line) : grepText pat fname line = grepOne pat fname line := by
  rw [grepText, List.splitOn_eq_singleton hline, grepOne]
  by_cases hin : pat <:+: line
  · simp [hin]
  · simp [hin]

/-! ## Searching a line -/

theorem ensures_searchLine (h : m.At p table out) (hok : TableOk table) (hpat : Spells s pat)
    (hne : pat ≠ []) {fn : Bytes} (hfn : Spells fn fname) (hfnlen : fname.length ≤ 32) {lineStart : Nat}
    (hline : Spells (fun j => data (lineStart + j)) line) (hlen : line.length ≤ grepBufSize) {n k : Nat}
    (hn : k + n = line.length) :
    Prog.Ensures (Machine.serve cfg) (LeavesAlone p)
      (searchLine s fn data pat.length lineStart n (lineStart + k))
      (fun _ m' => m'.At p table (out ++ if pat <:+: line.drop k then grepLine fname line else [])) m := by
  induction n generalizing k with
  | zero =>
      have hdrop : line.drop k = [] := List.drop_eq_nil_of_le (by omega)
      rw [hdrop, if_neg (by rwa [List.infix_nil]), List.append_nil]
      exact h
  | succ n ih =>
      have hk : k < line.length := by omega
      have hmatch := ece391Strncmp_prefix (hline.drop hk.le) hpat
      have hcons := List.drop_eq_getElem_cons hk
      rw [searchLine]
      by_cases hfound : s 0 = data (lineStart + k) ∧
          ece391Strncmp (fun j => data (lineStart + k + j)) s pat.length = 0
      · -- a match at `check`
        have hin : pat <:+: line.drop k := (hmatch.1 hfound.2).isInfix
        rw [if_pos hfound, if_pos hin]
        unfold grepBufSize at hlen
        refine Prog.ensures_bind.2 ((ensures_fdputs h hok hfn (by omega) (by omega)).mono fun _ m₁ h₁ => ?_)
        refine Prog.ensures_bind.2 ((ensures_fdputsLit h₁ hok (s := [58]) (by simp) (by decide)).mono
          fun _ m₂ h₂ => ?_)
        refine Prog.ensures_bind.2 ((ensures_fdputs h₂ hok hline (by unfold grepBufSize; omega)
          (by omega)).mono fun _ m₃ h₃ => ?_)
        refine (ensures_fdputsLit h₃ hok (s := [10]) (by simp) (by decide)).mono fun _ m₄ h₄ => ?_
        have hform : out ++ fname ++ [58] ++ line ++ [10] = out ++ grepLine fname line := by
          simp [grepLine]
        rwa [hform] at h₄
      · -- no match here, so a match in the line is one further on
        have hnot : ¬ pat <+: line.drop k := by
          intro hpre
          refine hfound ⟨?_, hmatch.2 hpre⟩
          obtain ⟨c, pat', rfl⟩ := List.exists_cons_of_ne_nil hne
          rw [hcons] at hpre
          have hhead : s 0 = c := hpat.getElem (Nat.succ_pos _)
          rw [hhead, show data (lineStart + k) = _ from hline.getElem hk]
          exact (List.cons_prefix_cons.1 hpre).1
        have hiff : pat <:+: line.drop k ↔ pat <:+: line.drop (k + 1) := by
          rw [hcons] at hnot ⊢
          rw [List.infix_cons_iff, or_iff_right hnot]
        rw [if_neg hfound]
        simp only [hiff]
        exact ih (k := k + 1) (by omega)

/-! ## The lines in the array -/

theorem grepText_nil (hne : pat ≠ []) : grepText pat fname [] = [] := by
  rw [grepText_line (List.not_mem_nil), grepOne, if_neg (by rwa [List.infix_nil])]

/-- The array after a read: `last` bytes of a text without NULs. What follows in the file is `rest`; that
    there is no line break in a full array, or that one is left in the byte behind it, is excluded: there the
    program takes the cut line for a whole one. -/
structure Filled (data : Bytes) (last : Nat) (cnt : Int32) (rest : List UInt8) : Prop where
  size : last ≤ grepBufSize
  nonzero : ∀ j < last, data j ≠ 0
  mark : last = grepBufSize → data grepBufSize ≠ 10
  notFull : last < grepBufSize → rest = []
  full : last = grepBufSize → 10 ∈ firstBytes data last
  atEnd : cnt = 0 → rest = []

/-- While the lines of the array are searched: those before `lineStart` have been. -/
structure LinesSearched (data : Bytes) (last : Nat) (rest pat fname total : List UInt8) (p : Slot)
    (table : FdTable) (st : LineState) (m : Machine) : Prop where
  sameLast : st.last = last
  start : st.lineStart < last ∨ st.lineStart = 0
  sameData : ∀ j, st.lineStart ≤ j → st.data j = data j
  total : ∃ out, m.At p table out ∧
    out ++ grepText pat fname ((firstBytes data last).drop st.lineStart ++ rest) = total

/-- What the loop over lines leaves: the bytes still to be searched are at the front of the array. -/
structure Carried (data : Bytes) (last : Nat) (cnt : Int32) (rest pat fname total : List UInt8) (p : Slot)
    (table : FdTable) (st : Bytes × Nat) (m : Machine) : Prop where
  room : st.2 < grepBufSize
  mark : data grepBufSize ≠ 10 → st.1 grepBufSize ≠ 10
  suffix : firstBytes st.1 st.2 <:+ firstBytes data last
  atEnd : cnt = 0 → st.2 = 0
  total : ∃ out, m.At p table out ∧ out ++ grepText pat fname (firstBytes st.1 st.2 ++ rest) = total

variable {rest total : List UInt8} {last : Nat} {cnt : Int32} {st : LineState} {fn : Bytes}

/-- The line that begins at `lineStart`: up to the next line break, or to the end of the array. -/
theorem line_at (hfill : Filled data last cnt rest) {lineStart : Nat} (hle : lineStart ≤ last) {arr : Bytes}
    (hsame : ∀ j, lineStart ≤ j → arr j = data j) :
    ∃ (line : List UInt8) (lineEnd : Nat),
      Scan.scan (fun j => arr j != 10) lineStart (last - lineStart) = lineEnd ∧
      lineEnd = lineStart + line.length ∧ lineEnd ≤ last ∧ 10 ∉ line ∧
      Spells (fun j => Function.update arr lineEnd 0 (lineStart + j)) line ∧
      ((firstBytes data last).drop lineStart = line ∧ lineEnd = last ∨
        (firstBytes data last).drop lineStart = line ++ 10 :: (firstBytes data last).drop (lineEnd + 1) ∧
          lineEnd < last ∧ arr lineEnd = 10) := by
  obtain ⟨hge, hend, hpass, hstop⟩ := Scan.scan_spec (fun j => arr j != 10) lineStart (last - lineStart)
  set lineEnd := Scan.scan (fun j => arr j != 10) lineStart (last - lineStart) with hlineEnd
  have hdrop : (firstBytes data last).drop lineStart
      = (List.range' lineStart (last - lineStart)).map data := drop_map_range data last lineStart
  refine ⟨(List.range' lineStart (lineEnd - lineStart)).map data, lineEnd, rfl, ?_, by omega, ?_, ⟨?_, ?_⟩, ?_⟩
  · rw [List.length_map, List.length_range']
    omega
  · intro hmem
    obtain ⟨j, hj, hten⟩ := List.mem_map.1 hmem
    rw [List.mem_range'_1] at hj
    have hne := hpass j hj.1 (by omega)
    rw [hsame j hj.1, hten] at hne
    exact absurd hne (by decide)
  · intro j hj
    rw [List.length_map, List.length_range'] at hj
    rcases Nat.eq_or_lt_of_le hj with rfl | hlt
    · rw [Nat.add_sub_cancel' hge, Function.update_self]
      simp
    · rw [Function.update_of_ne (by omega), hsame _ (Nat.le_add_right _ _)]
      simp [hlt]
  · intro c hc
    obtain ⟨j, hj, rfl⟩ := List.mem_map.1 hc
    rw [List.mem_range'_1] at hj
    exact hfill.nonzero j (by omega)
  · rw [hdrop]
    rcases Nat.eq_or_lt_of_le (show lineEnd ≤ last by omega) with heq | hlt
    · -- no newline up to the end of the array
      left
      rw [heq]
      exact ⟨rfl, rfl⟩
    · -- a newline ends the line
      right
      have hten : arr lineEnd = 10 := by simpa using hstop (by omega)
      refine ⟨?_, hlt, hten⟩
      have hsplit : last - lineStart = (lineEnd - lineStart) + (1 + (last - (lineEnd + 1))) := by omega
      have hrest : (firstBytes data last).drop (lineEnd + 1)
          = (List.range' (lineEnd + 1) (last - (lineEnd + 1))).map data := drop_map_range data last _
      rw [hrest, hsplit, ← List.range'_append_1, List.map_append, Nat.add_sub_cancel' hge, Nat.add_comm 1,
        List.range'_succ, List.map_cons, ← hsame lineEnd hge, hten]

section Round
variable {arr : Bytes} {lineStart : Nat} {line : List UInt8}

/-- Ending a line with a NUL puts no line break behind the array. -/
theorem mark_update (hle : lineStart ≤ grepBufSize) (hsame : ∀ j, lineStart ≤ j → arr j = data j)
    (lineEnd : Nat) (hmark : data grepBufSize ≠ 10) : Function.update arr lineEnd 0 grepBufSize ≠ 10 := by
  rw [Function.update_apply]
  split_ifs
  · decide
  · rw [hsame _ hle]
    exact hmark

/-- The unfinished line, copied to the front of the array. -/
theorem carried_unfinished (hfill : Filled data last cnt rest) (hcnt : cnt ≠ 0) (hpos : lineStart ≠ 0)
    (hlast : last = lineStart + line.length) (hsame : ∀ j, lineStart ≤ j → arr j = data j)
    (hspells : Spells (fun j => Function.update arr last 0 (lineStart + j)) line)
    (hdrop : (firstBytes data last).drop lineStart = line) (h : m.At p table out)
    (htotal : out ++ grepText pat fname (line ++ rest) = total) :
    Carried data last cnt rest pat fname total p table
      (ece391Strcpy (grepBufSize + 1) (Function.update arr last 0) 0 lineStart, last - lineStart) m := by
  have hsize := hfill.size
  obtain ⟨hcopied, hother⟩ := ece391Strcpy_down (Nat.pos_of_ne_zero hpos) hspells
    (show line.length < grepBufSize + 1 by omega)
  have hfront : firstBytes (ece391Strcpy (grepBufSize + 1) (Function.update arr last 0) 0 lineStart)
      (last - lineStart) = line := by
    refine List.ext_getElem (by rw [length_firstBytes]; omega) fun j hj hj' => ?_
    have hget := hcopied.getElem hj'
    rw [Nat.zero_add] at hget
    rw [← hget]
    simp [firstBytes]
  -- the copy is shorter than the array, so it leaves the byte behind the array alone
  have hbehind := hother grepBufSize (Or.inr (by omega))
  refine ⟨show last - lineStart < grepBufSize by omega, ?_, ?_, fun hzero => absurd hzero hcnt, out, h, ?_⟩
  · simp only [hbehind]
    exact mark_update (by omega) hsame last
  · simp only [hfront, ← hdrop]
    exact List.drop_suffix _ _
  · simp only [hfront]
    exact htotal

/-- A line without a line break that is searched and not carried over is the last of the file. -/
theorem Filled.rest_eq_nil (hfill : Filled data last cnt rest) (hdrop : (firstBytes data last).drop lineStart = line)
    (hten : 10 ∉ line) (hsearched : ¬ (data last ≠ 10 ∧ cnt ≠ 0 ∧ lineStart ≠ 0)) : rest = [] := by
  by_cases hfull : last = grepBufSize
  · have hno : data last ≠ 10 := by
      rw [hfull]
      exact hfill.mark hfull
    by_cases hcnt : cnt = 0
    · exact hfill.atEnd hcnt
    · obtain rfl : lineStart = 0 := by
        by_contra hpos
        exact hsearched ⟨hno, hcnt, hpos⟩
      rw [List.drop_zero] at hdrop
      exact absurd (hdrop ▸ hfill.full hfull) hten
  · have hsize := hfill.size
    exact hfill.notFull (by omega)

/-- With nothing left in the array, everything before has been searched. -/
theorem carried_nothing (hfill : Filled data last cnt rest) (hle : lineStart ≤ last)
    (hsame : ∀ j, lineStart ≤ j → arr j = data j) (lineEnd : Nat) (h : m.At p table out)
    (htotal : out ++ grepText pat fname rest = total) :
    Carried data last cnt rest pat fname total p table (Function.update arr lineEnd 0, 0) m :=
  ⟨Nat.succ_pos _, mark_update (hle.trans hfill.size) hsame lineEnd, List.nil_suffix, fun _ => rfl, out, h,
    htotal⟩

end Round

/-- One round of the loop over lines searches a line or moves it to the front. -/
theorem ensures_lineRound (hok : TableOk table) (hpat : Spells s pat) (hne : pat ≠ []) (hfn : Spells fn fname)
    (hfnlen : fname.length ≤ 32) (hfill : Filled data last cnt rest)
    (h : LinesSearched data last rest pat fname total p table st m) :
    Prog.Ensures (Machine.serve cfg) (LeavesAlone p) (lineRound s fn pat.length cnt st)
      (fun r m' => r.elim
        (fun st' => LinesSearched data last rest pat fname total p table st' m' ∧
          last - st'.lineStart < last - st.lineStart)
        fun st' => Carried data last cnt rest pat fname total p table st' m') m := by
  obtain ⟨arr, last', lineStart⟩ := st
  obtain ⟨hlast, hstart, hsame, out, hat, htotal⟩ := h
  simp only at hlast hstart hsame htotal
  subst hlast
  have hbegin : lineStart ≤ last' := by omega
  obtain ⟨line, lineEnd, hscan, hend, hle, hten, hspells, hcase⟩ := line_at hfill hbegin hsame
  unfold lineRound
  simp only [hscan]
  by_cases hcarry : arr lineEnd ≠ 10 ∧ cnt ≠ 0 ∧ lineStart ≠ 0
  · rw [if_pos hcarry]
    -- the array ends within the line, which is moved to its front
    obtain ⟨hbreak, hcnt, hpos⟩ := hcarry
    rcases hcase with ⟨hdrop, rfl⟩ | ⟨-, -, hnewline⟩
    · rw [hdrop] at htotal
      exact carried_unfinished hfill hcnt hpos hend hsame hspells hdrop hat htotal
    · exact absurd hnewline hbreak
  · rw [if_neg hcarry]
    have hsub : lineEnd - lineStart = line.length := by omega
    rw [hsub]
    have hsize := hfill.size
    refine Prog.ensures_bind.2 ((ensures_searchLine hat hok hpat hne hfn hfnlen hspells (by omega)
      (k := 0) (Nat.zero_add _)).mono fun _ m₁ h₁ => ?_)
    rw [List.drop_zero, ← grepOne] at h₁
    rcases hcase with ⟨hdrop, rfl⟩ | ⟨hdrop, hlt, hnewline⟩
    · -- the line is all that is left
      rw [hsame _ (by omega)] at hcarry
      have hrest : rest = [] := hfill.rest_eq_nil hdrop hten hcarry
      rw [if_pos (by omega)]
      refine carried_nothing hfill hbegin hsame _ h₁ ?_
      rw [← htotal, hdrop, hrest, List.append_nil, grepText_line hten, grepText_nil hne, List.append_nil]
    · have htext : out ++ grepOne pat fname line
          ++ grepText pat fname ((firstBytes data last').drop (lineEnd + 1) ++ rest) = total := by
        rw [← htotal, hdrop, List.append_assoc line, List.cons_append, grepText_cons hten, List.append_assoc]
      by_cases hdone : lineEnd + 1 ≥ last'
      · rw [if_pos hdone]
        rw [List.drop_eq_nil_of_le (by rw [length_firstBytes]; omega)] at htext
        exact carried_nothing hfill hbegin hsame _ h₁ htext
      · -- another line begins behind the newline
        rw [if_neg hdone]
        refine ⟨⟨rfl, Or.inl ?_, fun j hj => ?_, _, h₁, htext⟩, ?_⟩
        · simp only
          omega
        · simp only at hj ⊢
          rw [Function.update_of_ne (by omega), hsame j (by omega)]
        · simp only
          omega

/-- All lines of the array. -/
theorem ensures_searchArray (hok : TableOk table) (hpat : Spells s pat) (hne : pat ≠ []) (hfn : Spells fn fname)
    (hfnlen : fname.length ≤ 32) (hfill : Filled data last cnt rest) (h : m.At p table out)
    (htotal : out ++ grepText pat fname (firstBytes data last ++ rest) = total) {fuel : Nat}
    (hfuel : grepBufSize < fuel) :
    Prog.Ensures (Machine.serve cfg) (LeavesAlone p) (searchArray fuel s fn pat.length cnt data last)
      (fun r m' =>
        if cnt = 0 then r = .inr (some 0) ∧ m'.At p table total
        else ∃ st, r = .inl st ∧ Carried data last cnt rest pat fname total p table st m') m := by
  have hsize := hfill.size
  have hbegin : LinesSearched data last rest pat fname total p table ⟨data, last, 0⟩ m :=
    ⟨rfl, Or.inr rfl, fun _ _ => rfl, out, h, htotal⟩
  refine Prog.ensures_bind.2 ((Prog.Ensures.iterate
    (I := LinesSearched data last rest pat fname total p table) (v := fun st _ => last - st.lineStart)
    (Q := fun st m' => Carried data last cnt rest pat fname total p table st m')
    (fun st m hst => ensures_lineRound hok hpat hne hfn hfnlen hfill hst) (by simp only; omega) hbegin).mono ?_)
  rintro r m₁ ⟨st, rfl, hcarried⟩
  simp only
  split_ifs with hcnt
  · obtain ⟨out', h', htotal'⟩ := hcarried.total
    have hnil : firstBytes st.1 0 = [] := rfl
    rw [hcarried.atEnd hcnt, hfill.atEnd hcnt, hnil, List.append_nil, grepText_nil hne,
      List.append_nil] at htotal'
    exact ⟨rfl, htotal' ▸ h'⟩
  · exact ⟨st, rfl, hcarried⟩

end BaseOs
