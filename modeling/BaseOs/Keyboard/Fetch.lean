import BaseOs.Keyboard
import BaseOs.Lib.Stores
import BaseOs.Lib.Terminated

set_option autoImplicit false

/-! # What `keyboard_read` puts into the caller's buffer

`terminal_retrieve` copies the saved line without its leading spaces, and `keyboard_read` adds a newline
unless what it finds in the buffer begins with `exit`. The copy keeps to the buffer, the newline need not
(`readFits_iff`), and a line that only begins with `exit` loses it (`readsLine_iff`). -/

namespace BaseOs

open Stores Terminated

/-- Where the first loop of `terminal_retrieve` stops, for a buffer of `n` bytes. -/
def retrieveFirst (row : Bytes) (n : Nat) : Nat :=
  Scan.scan (fun i => row i == 32) 0 (min n termBuffSize)

/-- Where its second loop stops. -/
def retrieveLast (row : Bytes) (n : Nat) : Nat :=
  Scan.scan (fun i => row i != 0) (retrieveFirst row n) (min n (termBuffSize - retrieveFirst row n))

/-- The stores `terminal_retrieve` makes into the buffer: the line, and its NUL if the loop met it. -/
def retrieveStores (row : Bytes) (nbytes : Int) : List (Store UInt8) :=
  let n := nbytes.toNat
  let first := retrieveFirst row n
  let last := retrieveLast row n
  let count := last - first
  copy 0 (fun j => row (first + j)) count
    ++ if count < n ∧ last < termBuffSize then [⟨count, 0⟩] else []

/-- The stores of `keyboard_read`: those of `terminal_retrieve`, then the newline. -/
def keyboardReadStores (row buf : Bytes) (nbytes : Int) : List (Store UInt8) :=
  let stores := retrieveStores row nbytes
  if strncmp (apply buf stores) (cstr (ascii "exit")) 4 ≠ 0 then
    stores ++ [⟨(terminalRetrieve row buf nbytes).1, 10⟩]
  else stores

variable {row buf : Bytes} {nbytes : Int} {s : List UInt8}

theorem apply_retrieveStores (row buf : Bytes) (nbytes : Int) :
    apply buf (retrieveStores row nbytes) = (terminalRetrieve row buf nbytes).2 := by
  set n := nbytes.toNat with hn
  set first := retrieveFirst row n with hfirst
  set last := retrieveLast row n with hlast
  have hbuf : (terminalRetrieve row buf nbytes).2 = fun i =>
      if i < last - first then row (first + i)
      else if i = last - first ∧ last - first < n ∧ last < termBuffSize then 0 else buf i := rfl
  unfold retrieveStores
  simp only [← hn, ← hfirst, ← hlast, hbuf, apply_append]
  funext i
  have hcopied : apply buf (copy 0 (fun j => row (first + j)) (last - first)) i
      = if i < last - first then row (first + i) else buf i := by
    rw [apply_copy, Nat.zero_add, Nat.sub_zero]
    simp only [Nat.zero_le, true_and]
  by_cases hnul : last - first < n ∧ last < termBuffSize
  · rw [if_pos hnul, apply_cons, apply_nil]
    by_cases hi : i = last - first
    · subst hi
      rw [Function.update_self, if_neg (Nat.lt_irrefl _), if_pos ⟨rfl, hnul⟩]
    · rw [Function.update_of_ne hi, hcopied, if_neg fun h : _ ∧ _ => hi h.1]
  · rw [if_neg hnul, apply_nil, hcopied, if_neg fun h : _ ∧ _ => hnul h.2]

theorem apply_keyboardReadStores (row buf : Bytes) (nbytes : Int) :
    apply buf (keyboardReadStores row buf nbytes) = (keyboardReadFetch row buf nbytes).2 := by
  unfold keyboardReadStores keyboardReadFetch
  simp only [apply_retrieveStores]
  split_ifs
  · rw [apply_append, apply_retrieveStores, apply_cons, apply_nil]
  · exact apply_retrieveStores row buf nbytes

theorem keyboardReadFetch_exit
    (h : strncmp (terminalRetrieve row buf nbytes).2 (cstr (ascii "exit")) 4 = 0) :
    keyboardReadFetch row buf nbytes = terminalRetrieve row buf nbytes := by
  unfold keyboardReadFetch
  simp only [ne_eq, h, not_true, if_false]

theorem keyboardReadFetch_line
    (h : strncmp (terminalRetrieve row buf nbytes).2 (cstr (ascii "exit")) 4 ≠ 0) :
    keyboardReadFetch row buf nbytes
      = ((terminalRetrieve row buf nbytes).1 + 1,
        Function.update (terminalRetrieve row buf nbytes).2 (terminalRetrieve row buf nbytes).1 10) := by
  unfold keyboardReadFetch
  simp only [if_pos h]

/-! ## The line in the row -/

/-- The line in a row without its leading spaces, of which no more than `n` are skipped. -/
def heldLine (row : Bytes) (n : Nat) : List UInt8 :=
  let line := (List.range termBuffSize).map row
  (line.drop ((line.take n).takeWhile (· == 32)).length).takeWhile (· != 0)

theorem retrieveFirst_eq (row : Bytes) (n : Nat) :
    retrieveFirst row n
      = ((((List.range termBuffSize).map row).take n).takeWhile (· == 32)).length := by
  unfold retrieveFirst
  rw [scan_eq_length (· == 32) row, Nat.zero_add, ← List.map_take, List.take_range,
    List.range_eq_range']

theorem heldLine_eq (row : Bytes) (n : Nat) :
    heldLine row n
      = (((List.range termBuffSize).map row).drop (retrieveFirst row n)).takeWhile (· != 0) := by
  rw [retrieveFirst_eq]
  rfl

/-- The second loop stops at the end of the line or of the buffer. -/
theorem retrieveLast_eq (row : Bytes) (n : Nat) :
    retrieveLast row n = retrieveFirst row n + min n (heldLine row n).length := by
  unfold retrieveLast
  rw [scan_eq_length (· != 0) row, heldLine_eq, ← List.length_take, List.take_takeWhile,
    drop_map_range, take_map_range']

theorem heldLine_get {n j : Nat} (hj : j < (heldLine row n).length) :
    row (retrieveFirst row n + j) = (heldLine row n).getD j 0 := by
  have hpre : heldLine row n <+: ((List.range termBuffSize).map row).drop (retrieveFirst row n) := by
    rw [heldLine_eq]
    exact List.takeWhile_prefix _
  rw [List.getD_eq_getElem _ _ hj, hpre.getElem hj]
  simp

theorem heldLine_ne_zero {n : Nat} : ∀ c ∈ heldLine row n, c ≠ 0 := by
  intro c hc
  simpa using List.mem_takeWhile_imp hc

theorem terminalRetrieve_count (row buf : Bytes) (nbytes : Int) :
    (terminalRetrieve row buf nbytes).1 = min nbytes.toNat (heldLine row nbytes.toNat).length := by
  change retrieveLast row nbytes.toNat - retrieveFirst row nbytes.toNat = _
  rw [retrieveLast_eq, Nat.add_sub_cancel_left]

/-- What the copy leaves: the line as far as there is room, old bytes where the buffer ends before it. -/
theorem terminalRetrieve_buf (row buf : Bytes) (nbytes : Int) (i : Nat) :
    (terminalRetrieve row buf nbytes).2 i
      = if i < min nbytes.toNat (heldLine row nbytes.toNat).length then
          (heldLine row nbytes.toNat).getD i 0
        else if i = (heldLine row nbytes.toNat).length ∧ i < nbytes.toNat ∧
            retrieveFirst row nbytes.toNat + i < termBuffSize then 0
        else buf i := by
  obtain ⟨n, hn⟩ : ∃ n, nbytes.toNat = n := ⟨_, rfl⟩
  change (if i < retrieveLast row nbytes.toNat - retrieveFirst row nbytes.toNat then
      row (retrieveFirst row nbytes.toNat + i)
    else if i = retrieveLast row nbytes.toNat - retrieveFirst row nbytes.toNat ∧
      retrieveLast row nbytes.toNat - retrieveFirst row nbytes.toNat < nbytes.toNat ∧
      retrieveLast row nbytes.toNat < termBuffSize then 0
    else buf i) = _
  simp only [hn]
  rw [retrieveLast_eq, Nat.add_sub_cancel_left]
  by_cases hi : i < min n (heldLine row n).length
  · rw [if_pos hi, if_pos hi]
    exact heldLine_get (hi.trans_le (min_le_right _ _))
  · rw [if_neg hi, if_neg hi]
    refine if_congr ?_ rfl rfl
    omega

/-! ## The size of the buffer -/

/-- The call returns no more than the size of the buffer, and stores only inside it. -/
structure ReadFits (row buf : Bytes) (nbytes : Int) : Prop where
  returned : ((keyboardReadFetch row buf nbytes).1 : Int) ≤ nbytes
  within : Within nbytes.toNat (keyboardReadStores row buf nbytes)

/-- The first four bytes of the line are `exit`, where those beyond a buffer of fewer than four bytes are
    taken from what is there. -/
def ExitSeen (row buf : Bytes) (n : Nat) : Prop :=
  ∀ j < 4, (if j < n then (heldLine row n).getD j 0 else buf j) = cstr (ascii "exit") j

instance (row buf : Bytes) (n : Nat) : Decidable (ExitSeen row buf n) :=
  inferInstanceAs (Decidable (∀ j < 4, _ = _))

theorem strncmp_exit_iff (b : Bytes) :
    strncmp b (cstr (ascii "exit")) 4 = 0 ↔ ∀ j < 4, b j = cstr (ascii "exit") j :=
  strncmp_eq_zero_of_right_ne (by decide)

theorem within_retrieveStores (row : Bytes) (nbytes : Int) :
    Within nbytes.toNat (retrieveStores row nbytes) := by
  unfold retrieveStores
  simp only [retrieveLast_eq, Nat.add_sub_cancel_left]
  rw [within_append]
  refine ⟨within_copy (by omega), ?_⟩
  split_ifs with hroom
  · exact within_cons.2 ⟨hroom.1, within_nil⟩
  · exact within_nil

/-- A line shorter than the buffer leaves room for the newline. -/
theorem readFits_of_short (buf : Bytes) (hshort : (heldLine row nbytes.toNat).length < nbytes.toNat) :
    ReadFits row buf nbytes := by
  have hcount := terminalRetrieve_count row buf nbytes
  have hstores := within_retrieveStores row nbytes
  rw [Nat.min_eq_right hshort.le] at hcount
  constructor
  · by_cases hexit : strncmp (terminalRetrieve row buf nbytes).2 (cstr (ascii "exit")) 4 = 0
    · rw [keyboardReadFetch_exit hexit, hcount]
      omega
    · rw [keyboardReadFetch_line hexit, hcount]
      push_cast
      omega
  · unfold keyboardReadStores
    simp only [hcount]
    split_ifs
    · exact within_append.2 ⟨hstores, within_cons.2 ⟨hshort, within_nil⟩⟩
    · exact hstores

/-- In a full buffer the comparison sees the line, and old bytes behind the buffer. -/
theorem exitSeen_of_full (buf : Bytes) (hlong : nbytes.toNat ≤ (heldLine row nbytes.toNat).length) :
    strncmp (terminalRetrieve row buf nbytes).2 (cstr (ascii "exit")) 4 = 0 ↔
      ExitSeen row buf nbytes.toNat := by
  rw [strncmp_exit_iff]
  refine forall₂_congr fun j _ => ?_
  rw [terminalRetrieve_buf, Nat.min_eq_left hlong]
  by_cases hin : j < nbytes.toNat
  · rw [if_pos hin, if_pos hin]
  · rw [if_neg hin, if_neg hin, if_neg fun h => hin h.2.1]

/-- The call stays within the buffer exactly if there is room for the newline or none is added. -/
theorem readFits_iff (row buf : Bytes) (h : 1 ≤ nbytes) :
    ReadFits row buf nbytes ↔
      (heldLine row nbytes.toNat).length < nbytes.toNat ∨ ExitSeen row buf nbytes.toNat := by
  rcases Nat.lt_or_ge (heldLine row nbytes.toNat).length nbytes.toNat with hshort | hlong
  · exact iff_of_true (readFits_of_short buf hshort) (Or.inl hshort)
  · have hcount := terminalRetrieve_count row buf nbytes
    rw [Nat.min_eq_left hlong] at hcount
    rw [or_iff_right (by omega), ← exitSeen_of_full buf hlong]
    constructor
    · -- the newline counts as well
      rintro ⟨hreturned, -⟩
      by_contra hnot
      rw [keyboardReadFetch_line hnot, hcount] at hreturned
      push_cast at hreturned
      omega
    · intro hexit
      constructor
      · rw [keyboardReadFetch_exit hexit, hcount]
        omega
      · unfold keyboardReadStores
        simp only [apply_retrieveStores, ne_eq, hexit, not_true, if_false]
        exact within_retrieveStores row nbytes

/-- A line of three characters and a buffer of four bytes. -/
theorem readFits_ls :
    ReadFits (cstr (ascii "ls ")) (fun _ => 0) 4 :=
  (readFits_iff _ _ (by decide)).2 (Or.inl (by decide))

/-- The line `ls` and a buffer of two bytes: the newline is the third. -/
theorem not_readFits :
    ¬ ∀ (row buf : Bytes) (nbytes : Int), 1 ≤ nbytes → ReadFits row buf nbytes := by
  intro hall
  have hreturned := (hall (cstr (ascii "ls")) (fun _ => 0) 2 (by decide)).returned
  revert hreturned
  decide

/-! ## The line returned -/

/-- What a line should be read as: without its leading spaces, with a newline unless it is `exit`. -/
def lineRead (line : List UInt8) : List UInt8 :=
  let stripped := line.dropWhile (· == 32)
  if stripped = ascii "exit" then stripped else stripped ++ [10]

/-- The call returns the count of the bytes of the line, and has put them into the buffer. -/
structure ReadsLine (line : List UInt8) (row buf : Bytes) (nbytes : Int) : Prop where
  returned : (keyboardReadFetch row buf nbytes).1 = (lineRead line).length
  bytes : ∀ i < (lineRead line).length,
    (keyboardReadFetch row buf nbytes).2 i = (lineRead line).getD i 0

variable {line : List UInt8}

/-- A buffer of 128 bytes and more gets the whole line. -/
theorem heldLine_spells (h : Spells row line) (hlen : line.length < termBuffSize) {n : Nat}
    (hn : termBuffSize ≤ n) : heldLine row n = line.dropWhile (· == 32) := by
  have hspace : (fun c : UInt8 => c == 32) = fun c => c == 32 && c != 0 := by
    funext c
    by_cases hc : c = 32
    · subst hc
      rfl
    · simp [hc]
  have htext : ((List.range termBuffSize).map row).takeWhile (· != 0) = line := h.text hlen.le
  unfold heldLine
  simp only
  rw [List.take_of_length_le (by simpa using hn), drop_length_takeWhile, hspace,
    takeWhile_dropWhile_and, htext, ← hspace]

/-- No more than the line is skipped. -/
theorem retrieveFirst_le (h : Spells row line) (n : Nat) : retrieveFirst row n ≤ line.length := by
  obtain ⟨-, -, hspaces, -⟩ := Scan.scan_spec (fun i => row i == 32) 0 (min n termBuffSize)
  by_contra hlt
  have hspace := hspaces line.length (Nat.zero_le _) (Nat.lt_of_not_le hlt)
  rw [h.zero] at hspace
  exact absurd hspace (by decide)

/-- A buffer as long as the line gets its text, too. -/
theorem heldLine_spells_of_le (h : Spells row line) (hlen : line.length < termBuffSize) {n : Nat}
    (hn : line.length ≤ n) : heldLine row n = line.dropWhile (· == 32) := by
  have hfirst : retrieveFirst row n = retrieveFirst row termBuffSize := by
    have hle := retrieveFirst_le h termBuffSize
    rw [retrieveFirst_eq, List.take_of_length_le (by simp)] at hle
    rw [retrieveFirst_eq, retrieveFirst_eq, List.take_of_length_le (i := termBuffSize) (by simp),
      ← List.take_takeWhile, List.length_take, Nat.min_eq_right (hle.trans hn)]
  rw [heldLine_eq, hfirst, ← heldLine_eq, heldLine_spells h hlen le_rfl]

/-- The NUL of the line is copied as well. -/
theorem retrieveFirst_add_lt (h : Spells row line) (hlen : line.length < termBuffSize) (n : Nat) :
    retrieveFirst row n + (heldLine row n).length < termBuffSize := by
  have hfirst := retrieveFirst_le h n
  by_contra hge
  have hj : line.length - retrieveFirst row n < (heldLine row n).length := by omega
  have hget := heldLine_get hj
  rw [Nat.add_sub_cancel' hfirst, h.zero, List.getD_eq_getElem _ _ hj] at hget
  exact heldLine_ne_zero _ (List.getElem_mem hj) hget.symm

/-- The comparison sees the line and its NUL, and nothing of what was in the buffer before. -/
theorem exit_seen_iff (h : Spells row line) (hlen : line.length < termBuffSize) (hn : 129 ≤ nbytes)
    (buf : Bytes) :
    strncmp (terminalRetrieve row buf nbytes).2 (cstr (ascii "exit")) 4 = 0 ↔
      ascii "exit" <+: line.dropWhile (· == 32) := by
  have hsize : termBuffSize = 128 := rfl
  have hheld := @heldLine_spells row line h hlen nbytes.toNat (by omega)
  have hnul := retrieveFirst_add_lt h hlen nbytes.toNat
  have hbuf := terminalRetrieve_buf row buf nbytes
  rw [hheld] at hnul
  simp only [hheld] at hbuf
  have hexit : ∀ j < 4, (ascii "exit").getD j 0 ≠ 0 := by decide
  rw [strncmp_exit_iff, prefix_iff_getD (by simp [ascii])]
  constructor
  · intro hall j hj
    have hlong : 4 ≤ (line.dropWhile (· == 32)).length := by
      by_contra hlt
      have hend := hall _ (Nat.lt_of_not_le hlt)
      rw [hbuf, if_neg (by omega), if_pos ⟨rfl, by omega, hnul⟩] at hend
      exact hexit _ (Nat.lt_of_not_le hlt) hend.symm
    have hj4 : j < 4 := hj
    have hbyte := hall j hj4
    rwa [hbuf, if_pos (by omega)] at hbyte
  · intro hall j hj
    have hbyte := hall j hj
    have hin : j < (line.dropWhile (· == 32)).length := by
      by_contra hge
      rw [List.getD_eq_default _ _ (Nat.le_of_not_lt hge)] at hbyte
      exact hexit j hj hbyte.symm
    rw [hbuf, if_pos (by omega)]
    exact hbyte

/-- The whole line without its leading spaces is copied. -/
theorem terminalRetrieve_spells (h : Spells row line) (hlen : line.length < termBuffSize)
    (hn : 129 ≤ nbytes) (buf : Bytes) :
    (terminalRetrieve row buf nbytes).1 = (line.dropWhile (· == 32)).length ∧
      ∀ i < (line.dropWhile (· == 32)).length,
        (terminalRetrieve row buf nbytes).2 i = (line.dropWhile (· == 32)).getD i 0 := by
  have hsize : termBuffSize = 128 := rfl
  have hheld := @heldLine_spells row line h hlen nbytes.toNat (by omega)
  have hstripped : (line.dropWhile (· == 32)).length ≤ line.length :=
    (List.dropWhile_suffix _).length_le
  constructor
  · rw [terminalRetrieve_count, hheld, Nat.min_eq_right (by omega)]
  · intro i hi
    rw [terminalRetrieve_buf, hheld, if_pos (by omega)]

theorem lineRead_of_not_exit (hexit : ¬ ascii "exit" <+: line.dropWhile (· == 32)) :
    lineRead line = line.dropWhile (· == 32) ++ [10] := by
  have hne : line.dropWhile (· == 32) ≠ ascii "exit" := by
    rintro heq
    rw [heq] at hexit
    exact hexit (List.prefix_refl _)
  unfold lineRead
  simp only [if_neg hne]

/-- A line is returned as it should be exactly if it is not a longer one that begins with `exit`. -/
theorem readsLine_iff (h : Spells row line) (hlen : line.length < termBuffSize) (hn : 129 ≤ nbytes)
    (buf : Bytes) :
    ReadsLine line row buf nbytes ↔
      (ascii "exit" <+: line.dropWhile (· == 32) → line.dropWhile (· == 32) = ascii "exit") := by
  obtain ⟨hcount, hbuf⟩ := terminalRetrieve_spells h hlen hn buf
  by_cases hexit : ascii "exit" <+: line.dropWhile (· == 32)
  · have hfetch := keyboardReadFetch_exit ((exit_seen_iff h hlen hn buf).2 hexit)
    rw [imp_iff_right hexit]
    constructor
    · rintro ⟨hreturned, -⟩
      rw [hfetch, hcount] at hreturned
      by_contra hne
      unfold lineRead at hreturned
      simp only [if_neg hne, List.length_append, List.length_singleton] at hreturned
      omega
    · intro heq
      have hread : lineRead line = line.dropWhile (· == 32) := by
        unfold lineRead
        simp only [if_pos heq]
      exact ⟨by rw [hfetch, hread, hcount], by rw [hfetch, hread]; exact hbuf⟩
  · have hread := lineRead_of_not_exit hexit
    have hfetch := keyboardReadFetch_line (mt (exit_seen_iff h hlen hn buf).1 hexit)
    rw [hcount] at hfetch
    refine iff_of_true ⟨?_, fun i hi => ?_⟩ fun hnow => absurd hnow hexit
    · rw [hfetch, hread, List.length_append, List.length_singleton]
    · rw [hread, List.length_append, List.length_singleton] at hi
      rw [hfetch, hread]
      simp only
      rcases Nat.eq_or_lt_of_le (Nat.le_of_lt_succ hi) with rfl | hlt
      · simp
      · rw [Function.update_of_ne hlt.ne, hbuf i hlt, List.getD_append _ _ _ _ hlt]

/-- The line ` ls`, with a space in front. -/
theorem readsLine_ls :
    ReadsLine (ascii " ls") (cstr (ascii " ls")) (fun _ => 0) 129 :=
  (readsLine_iff ⟨fun _ _ => rfl, by simp [ascii]⟩ (by decide) (by decide) _).2 (by decide)

/-- The line `exited` comes without its newline. -/
theorem not_readsLine : ¬ ∀ (line : List UInt8) (row buf : Bytes) (nbytes : Int), Spells row line →
    line.length < termBuffSize → 129 ≤ nbytes → ReadsLine line row buf nbytes := by
  intro hall
  have hreads := hall (ascii "exited") (cstr (ascii "exited")) (fun _ => 0) 129
    ⟨fun _ _ => rfl, by simp [ascii]⟩ (by decide) (by decide)
  have hreturned := hreads.returned
  revert hreturned
  decide

end BaseOs
