import BaseOs.Process.Arguments

set_option autoImplicit false

/-! # `getargs` and the memory around its buffer

The backward loop of `getargs` counts an unsigned index down and stops at the first character. Here it runs
in the memory around the caller's buffer, with 32-bit indices, so that it can run out of the buffer. It
does so exactly for a field of blanks (`staysInBuffer_iff`). Before it, the test whether the arguments fit
compares the copy's counter with `nbytes` and so takes every buffer of up to 128 bytes for too small
(`reportsFailure_iff`). -/

namespace BaseOs

open Kernel Terminated

/-- Memory by the 32-bit distance from the start of the buffer; `none` is a page that is not mapped. -/
abbrev Around := UInt32 → Option UInt8

/-- How the backward loop ends: at a character, at a page fault, or not within the given steps. -/
inductive TrimEnd
  | stopped (mem : Around)
  | fault
  | running

/-- The backward loop of `getargs` from index `backwards` on, with the indices it touches. -/
def trimLoop : Nat → UInt32 → Around → TrimEnd × List UInt32
  | 0, _, _ => (.running, [])
  | fuel + 1, backwards, mem =>
    match mem backwards with
    | none => (.fault, [backwards])
    | some c =>
      if c = 32 ∨ c = 0 then
        let rest := trimLoop fuel (backwards - 1) (Function.update mem backwards (some 0))
        (rest.1, backwards :: rest.2)
      else (.stopped mem, [backwards])

/-- How a call of `getargs` ends, with the indices of the buffer it touches. -/
structure GetargsRun where
  /-- The return value and the memory left, unless the call faults or is still running. -/
  returned : Option (Int32 × Around)
  accesses : List Nat

/-- Memory after the two loops that clear the buffer and copy the arguments. -/
def copyAround (args : Bytes) (mem : Around) (n : UInt32) : Around := fun i =>
  if i < n then some (copyArgs args (fun _ => 0) n.toNat i.toNat) else mem i

/-- `getargs` for a buffer of `n` bytes, with at most `fuel` steps of the backward loop. -/
def getargsRun (args : Bytes) (mem : Around) (n : UInt32) (fuel : Nat) : GetargsRun :=
  let filled := List.range n.toNat ++ List.range (min n.toNat termBuffSize)
  let mem := copyAround args mem n
  if min n.toNat termBuffSize = n.toNat then ⟨some (-1, mem), filled⟩
  else
    let trim := trimLoop fuel (n - 1) mem
    let touched := filled ++ trim.2.map (·.toNat)
    match trim.1 with
    | .stopped mem => ⟨some (if mem 0 = some 0 then -1 else 0, mem), touched ++ [0]⟩
    | .fault | .running => ⟨none, touched⟩

/-! ## The backward loop -/

/-- A space or a NUL. -/
def Blank (b : Option UInt8) : Prop := b = some 32 ∨ b = some 0

/-- Memory in which some blanks have become NULs. -/
def Cleared (mem mem' : Around) : Prop := ∀ i, mem' i = mem i ∨ (Blank (mem i) ∧ mem' i = some 0)

variable {mem mem' : Around} {b n : UInt32} {args buf : Bytes} {fuel : Nat}

theorem Cleared.blank_iff (h : Cleared mem mem') (i : UInt32) : Blank (mem' i) ↔ Blank (mem i) := by
  rcases h i with heq | ⟨hblank, hzero⟩
  · rw [heq]
  · exact iff_of_true (Or.inr hzero) hblank

theorem Cleared.get (h : Cleared mem mem') {i : UInt32} (hi : ¬ Blank (mem i)) : mem' i = mem i :=
  (h i).resolve_right fun hclear => hi hclear.1

theorem Cleared.zero (h : Cleared mem mem') {i : UInt32} (hi : mem i = some 0) : mem' i = some 0 :=
  (h i).elim (fun heq => heq.trans hi) fun hclear => hclear.2

theorem cleared_update (h : Blank (mem b)) : Cleared mem (Function.update mem b (some 0)) := by
  intro i
  by_cases hi : i = b
  · subst hi
    exact Or.inr ⟨h, Function.update_self _ _ _⟩
  · exact Or.inl (Function.update_of_ne hi _ _)

theorem Cleared.trans {mem'' : Around} (h : Cleared mem mem') (h' : Cleared mem' mem'') :
    Cleared mem mem'' := by
  intro i
  rcases h' i with heq | ⟨hblank, hzero⟩
  · rw [heq]
    exact h i
  · exact Or.inr ⟨(h.blank_iff i).1 hblank, hzero⟩

theorem trimLoop_blank_step (fuel : Nat) (h : Blank (mem b)) :
    trimLoop (fuel + 1) b mem =
      ((trimLoop fuel (b - 1) (Function.update mem b (some 0))).1,
        b :: (trimLoop fuel (b - 1) (Function.update mem b (some 0))).2) := by
  rcases h with h | h <;> simp [trimLoop, h]

theorem sub_ofNat_succ (b : UInt32) (j : Nat) : b - UInt32.ofNat (j + 1) = b - 1 - UInt32.ofNat j := by
  rw [UInt32.ofNat_add, add_comm, ← sub_sub]
  rfl

theorem first_mem_trimLoop (fuel : Nat) (b : UInt32) (mem : Around) :
    b ∈ (trimLoop (fuel + 1) b mem).2 := by
  rw [trimLoop]
  split
  · exact List.mem_singleton_self b
  · split_ifs
    · exact List.mem_cons_self
    · exact List.mem_singleton_self b

/-- The loop runs through blanks, and goes on below them with memory in which they are cleared. -/
theorem trimLoop_blanks {m : Nat} (h : ∀ j < m, Blank (mem (b - UInt32.ofNat j))) :
    ∃ mem', Cleared mem mem' ∧ ∀ fuel, trimLoop (m + fuel) b mem =
      ((trimLoop fuel (b - UInt32.ofNat m) mem').1,
        (List.range m).map (fun j => b - UInt32.ofNat j)
          ++ (trimLoop fuel (b - UInt32.ofNat m) mem').2) := by
  induction m generalizing b mem with
  | zero =>
      refine ⟨mem, fun i => Or.inl rfl, fun fuel => ?_⟩
      rw [Nat.zero_add]
      simp
  | succ m ih =>
      have hfirst : Blank (mem b) := by simpa using h 0 (Nat.succ_pos m)
      obtain ⟨mem', hclear, hrest⟩ := @ih (Function.update mem b (some 0)) (b - 1) fun j hj => by
        rw [(cleared_update hfirst).blank_iff, ← sub_ofNat_succ]
        exact h (j + 1) (Nat.succ_lt_succ hj)
      refine ⟨mem', (cleared_update hfirst).trans hclear, fun fuel => ?_⟩
      have hindices : (List.range (m + 1)).map (fun j => b - UInt32.ofNat j)
          = b :: (List.range m).map fun j => b - 1 - UInt32.ofNat j := by
        rw [List.range_succ_eq_map, List.map_cons, List.map_map]
        refine congrArg₂ List.cons (UInt32.sub_zero b) (List.map_congr_left fun j _ => ?_)
        exact sub_ofNat_succ b j
      rw [show m + 1 + fuel = m + fuel + 1 by omega, trimLoop_blank_step _ hfirst, hrest fuel,
        ← sub_ofNat_succ, hindices, List.cons_append]

/-- Counting down from `b`, the first byte that is not blank is a character. -/
def TrimStops (mem : Around) (b : UInt32) : Prop :=
  ∃ m c, (∀ j < m, Blank (mem (b - UInt32.ofNat j))) ∧ mem (b - UInt32.ofNat m) = some c ∧
    ¬ Blank (some c)

theorem trimLoop_stopped (h : (trimLoop fuel b mem).1 = .stopped mem') :
    Cleared mem mem' ∧ TrimStops mem b := by
  induction fuel generalizing b mem with
  | zero => cases h
  | succ fuel ih =>
      by_cases hblank : Blank (mem b)
      · rw [trimLoop_blank_step _ hblank] at h
        obtain ⟨hclear, m, c, hblanks, hend, hc⟩ := ih h
        have hupdate := cleared_update hblank
        refine ⟨hupdate.trans hclear, m + 1, c, fun j hj => ?_, ?_, hc⟩
        · cases j with
          | zero => simpa using hblank
          | succ j =>
              rw [sub_ofNat_succ, ← hupdate.blank_iff]
              exact hblanks j (Nat.lt_of_succ_lt_succ hj)
        · rw [sub_ofNat_succ, ← hend]
          refine (hupdate.get fun hold => hc ?_).symm
          rw [← hend]
          exact (hupdate.blank_iff _).2 hold
      · cases hbyte : mem b with
        | none => simp [trimLoop, hbyte] at h
        | some c =>
            rw [hbyte] at hblank
            have hstop : ¬ (c = 32 ∨ c = 0) := fun hc => hblank (hc.imp (congrArg some) (congrArg some))
            rw [trimLoop, hbyte] at h
            simp only [if_neg hstop] at h
            cases h
            exact ⟨fun i => Or.inl rfl, 0, c, fun j hj => absurd hj (Nat.not_lt_zero j),
              by simpa using hbyte, hblank⟩

/-- The loop stops at a character if there is one to stop at. -/
theorem trimLoop_stops_iff :
    (∃ fuel mem', (trimLoop fuel b mem).1 = .stopped mem') ↔ TrimStops mem b := by
  constructor
  · rintro ⟨fuel, mem', h⟩
    exact (trimLoop_stopped h).2
  · rintro ⟨m, c, hblanks, hend, hc⟩
    obtain ⟨mem', hclear, hrun⟩ := trimLoop_blanks hblanks
    have hbyte : mem' (b - UInt32.ofNat m) = some c :=
      (hclear.get (by rwa [hend])).trans hend
    have hstop : ¬ (c = 32 ∨ c = 0) := fun h => hc (h.imp (congrArg some) (congrArg some))
    refine ⟨m + 1, mem', ?_⟩
    rw [hrun 1, trimLoop, hbyte]
    simp only [if_neg hstop]

/-- Memory that holds the first `n` bytes of a buffer. -/
def Holding (mem : Around) (buf : Bytes) (n : Nat) : Prop :=
  ∀ i < n, mem (UInt32.ofNat i) = some (buf i)

/-- A byte of the buffer, cleared in memory and in the buffer. -/
theorem Holding.update {m N : Nat} (h : Holding mem buf N) (hm : m < N) (hN : N < 2 ^ 32) :
    Holding (Function.update mem (UInt32.ofNat m) (some 0)) (Function.update buf m 0) N := by
  intro i hi
  by_cases him : i = m
  · rw [him, Function.update_self, Function.update_self]
  · have hne : UInt32.ofNat i ≠ UInt32.ofNat m := fun heq => him <| by
      have := congrArg UInt32.toNat heq
      rwa [UInt32.toNat_ofNat_of_lt' (show i < 2 ^ 32 by omega),
        UInt32.toNat_ofNat_of_lt' (show m < 2 ^ 32 by omega)] at this
    rw [Function.update_of_ne hne, Function.update_of_ne him]
    exact h i hi

/-- The loop stops at a byte of the buffer that is not blank. -/
theorem trimLoop_char (fuel : Nat) {c : UInt8} (hc : mem b = some c) (hchar : ¬ (c = 32 ∨ c = 0)) :
    trimLoop (fuel + 1) b mem = (.stopped mem, [b]) := by
  rw [trimLoop, hc]
  simp only [if_neg hchar]

/-- In a buffer with a character the loop does what `trimBlanks` does, and stays in the buffer. -/
theorem trimLoop_eq_trimBlanks {m N : Nat} (hm : m ≤ N) (hN : N < 2 ^ 32) (hmem : Holding mem buf N)
    (hchar : ∃ i < m, buf i ≠ 32 ∧ buf i ≠ 0) (fuel : Nat) :
    (∀ i ∈ (trimLoop fuel (UInt32.ofNat m - 1) mem).2, i.toNat < m) ∧
      (m ≤ fuel → ∃ mem', (trimLoop fuel (UInt32.ofNat m - 1) mem).1 = .stopped mem' ∧
        Holding mem' (trimBlanks buf m) N) := by
  induction m generalizing buf mem fuel with
  | zero =>
      obtain ⟨i, hi, -⟩ := hchar
      exact absurd hi (Nat.not_lt_zero i)
  | succ m ih =>
      have hpred : UInt32.ofNat (m + 1) - 1 = UInt32.ofNat m := by
        rw [UInt32.ofNat_add]
        exact add_sub_cancel_right _ _
      have hlast : (UInt32.ofNat m).toNat < m + 1 := by
        rw [UInt32.toNat_ofNat_of_lt' (show m < 2 ^ 32 by omega)]
        exact Nat.lt_succ_self m
      have hbyte := hmem m (by omega)
      rw [hpred]
      cases fuel with
      | zero => exact ⟨fun i hi => absurd hi List.not_mem_nil, fun hle => absurd hle (by omega)⟩
      | succ fuel =>
          rw [trimBlanks]
          -- a blank is cleared and the loop goes on before it; a character ends it
          by_cases hblank : buf m = 32 ∨ buf m = 0
          · have hclear : Blank (mem (UInt32.ofNat m)) := by
              rw [hbyte]
              exact hblank.imp (congrArg some) (congrArg some)
            obtain ⟨i, hi, hiChar⟩ := hchar
            have him : i ≠ m := by
              rintro rfl
              exact hblank.elim hiChar.1 hiChar.2
            obtain ⟨hinside, hend⟩ := ih (Nat.le_of_succ_le hm) (hmem.update hm hN)
              ⟨i, by omega, by rwa [Function.update_of_ne him]⟩ fuel
            rw [trimLoop_blank_step _ hclear, if_pos hblank]
            refine ⟨fun j hj => ?_, fun hle => hend (by omega)⟩
            rcases List.mem_cons.1 hj with rfl | hj
            · exact hlast
            · exact (hinside j hj).trans (Nat.lt_succ_self m)
          · rw [trimLoop_char fuel hbyte hblank, if_neg hblank]
            refine ⟨fun i hi => ?_, fun _ => ⟨mem, rfl, hmem⟩⟩
            rw [List.mem_singleton.1 hi]
            exact hlast

/-! ## The whole call -/

/-- An argument field without a character, as `execute` leaves it in a fresh PCB for a command without
    arguments. -/
def FieldBlank (args : Bytes) : Prop := ∀ i < termBuffSize, args i = 32 ∨ args i = 0

theorem getargsRun_short (hn : n.toNat ≤ termBuffSize) (fuel : Nat) :
    getargsRun args mem n fuel
      = ⟨some (-1, copyAround args mem n), List.range n.toNat ++ List.range n.toNat⟩ := by
  unfold getargsRun
  simp only [Nat.min_eq_left hn, if_true]

theorem copyAround_holding (args : Bytes) (mem : Around) (n : UInt32) (buf : Bytes) :
    Holding (copyAround args mem n) (copyArgs args buf n.toNat) n.toNat := by
  intro i hi
  have htoNat : (UInt32.ofNat i).toNat = i := UInt32.toNat_ofNat_of_lt' (hi.trans n.toNat_lt)
  unfold copyAround copyArgs
  rw [if_pos (UInt32.lt_iff_toNat_lt.2 (by rwa [htoNat])), htoNat]
  simp only [if_pos hi]

/-- With a large buffer the backward loop decides. -/
theorem getargsRun_returned (hn : termBuffSize < n.toNat) (fuel : Nat) (r : Int32) (mem' : Around) :
    (getargsRun args mem n fuel).returned = some (r, mem') ↔
      (trimLoop fuel (n - 1) (copyAround args mem n)).1 = .stopped mem' ∧
        (if mem' 0 = some 0 then -1 else 0) = r := by
  unfold getargsRun
  simp only [Nat.min_eq_right hn.le, if_neg hn.ne]
  cases (trimLoop fuel (n - 1) (copyAround args mem n)).1 with
  | stopped mem1 =>
      simp only [Option.some.injEq, Prod.mk.injEq, TrimEnd.stopped.injEq]
      constructor
      · rintro ⟨hr, rfl⟩
        exact ⟨rfl, hr⟩
      · rintro ⟨rfl, hr⟩
        exact ⟨hr, rfl⟩
  | fault | running => simp

theorem mem_accesses_iff (hn : termBuffSize < n.toNat) (fuel i : Nat) :
    i ∈ (getargsRun args mem n fuel).accesses ↔ i < n.toNat ∨
      ∃ j ∈ (trimLoop fuel (n - 1) (copyAround args mem n)).2, j.toNat = i := by
  have hcopied : i < termBuffSize → i < n.toNat := fun h => h.trans hn
  have hfirst : i = 0 → i < n.toNat := fun h => h ▸ (Nat.zero_le _).trans_lt hn
  unfold getargsRun
  simp only [Nat.min_eq_right hn.le, if_neg hn.ne]
  cases (trimLoop fuel (n - 1) (copyAround args mem n)).1
  all_goals simp only [List.mem_append, List.mem_range, List.mem_map, List.mem_singleton,
    or_iff_left_of_imp hcopied]
  exact or_iff_left_of_imp fun h => Or.inl (hfirst h)

/-- With a character in the field the call ends as `getargs` does, and stays in the buffer. -/
theorem getargsRun_trim (hn : termBuffSize < n.toNat) (hchar : ¬ FieldBlank args) (buf : Bytes) :
    (∀ fuel, ∀ i ∈ (getargsRun args mem n fuel).accesses, i < n.toNat) ∧
      ∃ mem', (getargsRun args mem n n.toNat).returned
          = some (if trimBlanks (copyArgs args buf n.toNat) n.toNat 0 = 0 then -1 else 0, mem') ∧
        Holding mem' (trimBlanks (copyArgs args buf n.toNat) n.toNat) n.toNat := by
  have hfield : ∃ i < n.toNat, copyArgs args buf n.toNat i ≠ 32 ∧ copyArgs args buf n.toNat i ≠ 0 := by
    unfold FieldBlank at hchar
    push Not at hchar
    obtain ⟨i, hi, hc⟩ := hchar
    refine ⟨i, hi.trans hn, ?_⟩
    unfold copyArgs
    rwa [if_pos (lt_min (hi.trans hn) hi)]
  have hloop := trimLoop_eq_trimBlanks le_rfl n.toNat_lt (copyAround_holding args mem n buf) hfield
  rw [UInt32.ofNat_toNat] at hloop
  refine ⟨fun fuel i hi => ?_, ?_⟩
  · rcases (mem_accesses_iff hn fuel i).1 hi with hlt | ⟨j, hj, rfl⟩
    · exact hlt
    · exact (hloop fuel).1 j hj
  · obtain ⟨mem', hstop, hhold⟩ := (hloop n.toNat).2 le_rfl
    refine ⟨mem', (getargsRun_returned hn _ _ _).2 ⟨hstop, ?_⟩, hhold⟩
    have hfirst : mem' 0 = some (trimBlanks (copyArgs args buf n.toNat) n.toNat 0) :=
      hhold 0 ((Nat.zero_le _).trans_lt hn)
    rw [hfirst]
    simp only [Option.some.injEq]

/-- The same call, on `getargs` of the process. -/
theorem getargs_run {k : Kernel} {p : Slot} (hp : k.currentPcb? = some p) {nbytes : Int}
    (hfits : (toU32 nbytes).toNat ≤ termBuffSize ∨ ¬ FieldBlank (k.pcb p).args) (mem : Around)
    (buf : Bytes) :
    ∃ r mem', getargs k (some buf) nbytes = some r ∧
      (getargsRun (k.pcb p).args mem (toU32 nbytes) (toU32 nbytes).toNat).returned = some (r.ret, mem') ∧
      Holding mem' r.buf (toU32 nbytes).toNat := by
  unfold getargs
  simp only [hp]
  by_cases hzero : (toU32 nbytes).toNat = 0
  · rw [if_pos hzero, getargsRun_short (hzero.trans_le (Nat.zero_le _))]
    exact ⟨_, _, rfl, rfl, fun i hi => by omega⟩
  · rw [if_neg hzero]
    by_cases hn : (toU32 nbytes).toNat ≤ termBuffSize
    · rw [if_pos (Nat.min_eq_left hn), getargsRun_short hn]
      exact ⟨_, _, rfl, rfl, copyAround_holding _ _ _ _⟩
    · have hn' := Nat.lt_of_not_le hn
      obtain ⟨mem', hrun, hhold⟩ :=
        (@getargsRun_trim mem _ _ hn' (hfits.resolve_left hn) buf).2
      rw [if_neg (by omega)]
      split_ifs at hrun ⊢ with hempty
      · exact ⟨_, mem', rfl, hrun, hhold⟩
      · exact ⟨_, mem', rfl, hrun, hhold⟩

/-- The call touches no byte outside the buffer, and its backward loop ends within as many steps as the
    buffer has bytes. -/
structure StaysInBuffer (args : Bytes) (mem : Around) (n : UInt32) : Prop where
  inside : ∀ fuel, ∀ i ∈ (getargsRun args mem n fuel).accesses, i < n.toNat
  stops : (getargsRun args mem n n.toNat).returned.isSome

theorem sub_index {j : Nat} (hj : j < n.toNat) : n - 1 - UInt32.ofNat j = UInt32.ofNat (n.toNat - 1 - j) := by
  have hsum : n.toNat = n.toNat - 1 - j + (j + 1) := by omega
  have hn : n = UInt32.ofNat (n.toNat - 1 - j) + UInt32.ofNat (j + 1) := by
    rw [← UInt32.ofNat_add, ← hsum, UInt32.ofNat_toNat]
  rw [← sub_ofNat_succ]
  exact sub_eq_of_eq_add hn

/-- A blank field is copied into a blank buffer. -/
theorem buffer_blank (mem : Around) (h : FieldBlank args) :
    ∀ j < n.toNat, Blank (copyAround args mem n (n - 1 - UInt32.ofNat j)) := by
  intro j hj
  rw [sub_index hj, copyAround_holding args mem n (fun _ => 0) _ (by omega)]
  unfold copyArgs
  split_ifs with hin
  · exact (h _ (by omega)).imp (congrArg some) (congrArg some)
  · exact Or.inr rfl
  · omega

/-- With a blank field the loop runs through the whole buffer and looks at the byte before it. -/
theorem leaves_of_blank (hn : termBuffSize < n.toNat) (hblank : FieldBlank args) (mem : Around) :
    ¬ StaysInBuffer args mem n := by
  rintro ⟨hinside, -⟩
  obtain ⟨mem', -, hrun⟩ := trimLoop_blanks (buffer_blank mem hblank)
  have hbefore : (n - 1 - UInt32.ofNat n.toNat).toNat = 2 ^ 32 - 1 := by
    rw [UInt32.ofNat_toNat, sub_right_comm, sub_self]
    rfl
  have haccess := hinside (n.toNat + 1) (2 ^ 32 - 1)
    ((mem_accesses_iff hn _ _).2 (Or.inr ⟨_, ?_, hbefore⟩))
  · have := n.toNat_lt
    omega
  · rw [hrun 1]
    exact List.mem_append_right _ (first_mem_trimLoop _ _ _)

/-- The call stays in its buffer exactly if the buffer is too small for the loop to be reached or there
    is a character in the field. -/
theorem staysInBuffer_iff (args : Bytes) (mem : Around) (n : UInt32) :
    StaysInBuffer args mem n ↔ n.toNat ≤ termBuffSize ∨ ¬ FieldBlank args := by
  rcases Nat.lt_or_ge termBuffSize n.toNat with hn | hn
  · rw [or_iff_right (by omega)]
    constructor
    · intro hstays hblank
      exact leaves_of_blank hn hblank mem hstays
    · intro hchar
      obtain ⟨hinside, mem', hrun, -⟩ := @getargsRun_trim mem n args hn hchar fun _ => 0
      exact ⟨hinside, by rw [hrun]; rfl⟩
  · refine iff_of_true ⟨fun fuel i hi => ?_, ?_⟩ (Or.inl hn)
    · rw [getargsRun_short hn] at hi
      simpa using hi
    · rw [getargsRun_short hn]
      rfl

/-- An empty argument and a buffer of 129 bytes, whatever is around it: the loop looks before it. -/
theorem not_staysInBuffer :
    ¬ ∀ (args : Bytes) (mem : Around) (n : UInt32), StaysInBuffer args mem n := by
  intro hall
  exact leaves_of_blank (by decide) (fun _ _ => Or.inr rfl) _ (hall (fun _ => 0) (fun _ => none) 129)

/-! ## When it fails -/

variable {a : List UInt8}

/-- Below the buffer there is a character, and nothing but blanks between it and the buffer. -/
def CharBelow (mem : Around) (n : UInt32) : Prop :=
  ∃ d c, n.toNat + d < 2 ^ 32 ∧ (∀ e < d, Blank (mem (0 - UInt32.ofNat (e + 1)))) ∧
    mem (0 - UInt32.ofNat (d + 1)) = some c ∧ ¬ Blank (some c)

/-- The call reports a failure exactly if there are no arguments or they do not fit with their NUL. -/
structure ReportsFailure (a : List UInt8) (args : Bytes) (mem : Around) (n : UInt32) : Prop where
  failed : (∃ fuel mem', (getargsRun args mem n fuel).returned = some (-1, mem')) ↔
    a = [] ∨ n.toNat < a.length + 1
  succeeded : ¬ (a = [] ∨ n.toNat < a.length + 1) →
    ∃ fuel mem', (getargsRun args mem n fuel).returned = some (0, mem')

theorem below_index (n : UInt32) (d : Nat) :
    n - 1 - UInt32.ofNat (n.toNat + d) = 0 - UInt32.ofNat (d + 1) := by
  rw [UInt32.ofNat_add, UInt32.ofNat_toNat, sub_ofNat_succ, ← sub_sub, sub_right_comm n 1 n, sub_self]

theorem copyAround_below (args : Bytes) (mem : Around) {d : Nat} (hd : n.toNat + d < 2 ^ 32) :
    copyAround args mem n (0 - UInt32.ofNat (d + 1)) = mem (0 - UInt32.ofNat (d + 1)) := by
  have htoNat : (0 - UInt32.ofNat (d + 1)).toNat = 2 ^ 32 - (d + 1) := by
    rw [UInt32.toNat_sub, UInt32.toNat_ofNat']
    change (2 ^ 32 - (d + 1) % 2 ^ 32 + 0) % 2 ^ 32 = _
    omega
  unfold copyAround
  rw [if_neg fun hlt => ?_]
  have := UInt32.lt_iff_toNat_lt.1 hlt
  omega

/-- The backward loop leaves a blank buffer only for a character below it. -/
theorem trimStops_blank_iff (hblank : FieldBlank args) :
    TrimStops (copyAround args mem n) (n - 1) ↔ CharBelow mem n := by
  have hbuffer := @buffer_blank n args mem hblank
  constructor
  · rintro ⟨m, c, hblanks, hend, hc⟩
    have hbelow : n.toNat ≤ m := by
      by_contra hlt
      have hblank' := hbuffer m (by omega)
      rw [hend] at hblank'
      exact hc hblank'
    have hwrap : m < 2 ^ 32 := by
      by_contra hge
      -- after all of memory the loop would be back at a blank
      have hsame : UInt32.ofNat m = UInt32.ofNat (m - 2 ^ 32) := by
        apply UInt32.toNat_inj.1
        rw [UInt32.toNat_ofNat', UInt32.toNat_ofNat']
        omega
      have hblank' := hblanks (m - 2 ^ 32) (by omega)
      rw [← hsame, hend] at hblank'
      exact hc hblank'
    obtain ⟨d, rfl⟩ := Nat.exists_eq_add_of_le hbelow
    rw [below_index, copyAround_below _ _ hwrap] at hend
    refine ⟨d, c, hwrap, fun e he => ?_, hend, hc⟩
    have hblank' := hblanks (n.toNat + e) (by omega)
    rwa [below_index, copyAround_below _ _ (by omega)] at hblank'
  · rintro ⟨d, c, hwrap, hblanks, hend, hc⟩
    refine ⟨n.toNat + d, c, fun j hj => ?_, ?_, hc⟩
    · rcases Nat.lt_or_ge j n.toNat with hlt | hge
      · exact hbuffer j hlt
      · obtain ⟨e, rfl⟩ := Nat.exists_eq_add_of_le hge
        rw [below_index, copyAround_below _ _ (by omega)]
        exact hblanks e (by omega)
    · rw [below_index, copyAround_below _ _ hwrap]
      exact hend

theorem copyAround_first (args : Bytes) (mem : Around) (hn : termBuffSize < n.toNat) :
    copyAround args mem n 0 = some (args 0) := by
  have hfirst := copyAround_holding args mem n (fun _ => 0) 0 ((Nat.zero_le _).trans_lt hn)
  unfold copyArgs at hfirst
  rwa [if_pos (lt_min ((Nat.zero_le _).trans_lt hn) (by decide))] at hfirst

/-- Without arguments a large buffer is refused, if the loop ends. -/
theorem returned_empty_iff (hn : termBuffSize < n.toNat) (hzero : args 0 = 0) :
    (∃ fuel mem', (getargsRun args mem n fuel).returned = some (-1, mem')) ↔
      (FieldBlank args → CharBelow mem n) := by
  have hstops : (∃ fuel mem', (getargsRun args mem n fuel).returned = some (-1, mem')) ↔
      TrimStops (copyAround args mem n) (n - 1) := by
    rw [← trimLoop_stops_iff]
    refine exists_congr fun fuel => exists_congr fun mem' => ?_
    rw [getargsRun_returned hn]
    refine and_iff_left_of_imp fun hstop => ?_
    have hfirst := copyAround_first args mem hn
    rw [hzero] at hfirst
    rw [if_pos ((trimLoop_stopped hstop).1.zero hfirst)]
  rw [hstops]
  by_cases hblank : FieldBlank args
  · rw [trimStops_blank_iff hblank]
    exact ⟨fun h _ => h, fun h => h hblank⟩
  · refine iff_of_true ?_ fun h => absurd h hblank
    obtain ⟨mem', hrun, -⟩ := (@getargsRun_trim mem n args hn hblank fun _ => 0).2
    exact (trimLoop_stopped ((getargsRun_returned hn _ _ _).1 hrun).1).2

/-- Arguments are handed over in a large buffer, in every run. -/
theorem returned_args (hn : termBuffSize < n.toNat) (hchar : ¬ Blank (some (args 0))) :
    (∃ fuel mem', (getargsRun args mem n fuel).returned = some (0, mem')) ∧
      ∀ fuel r mem', (getargsRun args mem n fuel).returned = some (r, mem') → r = 0 := by
  have hzero : ∀ fuel r mem', (getargsRun args mem n fuel).returned = some (r, mem') → r = 0 := by
    intro fuel r mem' hrun
    obtain ⟨hstop, rfl⟩ := (getargsRun_returned hn _ _ _).1 hrun
    have hfirst := copyAround_first args mem hn
    have hkept := (trimLoop_stopped hstop).1.get (by rwa [hfirst])
    rw [if_neg]
    rw [hkept, hfirst]
    exact fun h => hchar (Or.inr h)
  refine ⟨?_, hzero⟩
  have hfield : ¬ FieldBlank args := fun h =>
    hchar ((h 0 (by decide)).imp (congrArg some) (congrArg some))
  obtain ⟨mem', hrun, -⟩ := (@getargsRun_trim mem n args hn hfield fun _ => 0).2
  exact ⟨n.toNat, mem', hzero _ _ _ hrun ▸ hrun⟩

/-- `getargs` reports a failure exactly as it should if a buffer of up to 128 bytes is in fact too small
    and, for a field of blanks and a larger buffer, the loop finds something to stop at. -/
theorem reportsFailure_iff (hargs : Spells args a) (hlen : a.length < termBuffSize)
    (hspace : a.head? ≠ some 32) (mem : Around) (n : UInt32) :
    ReportsFailure a args mem n ↔
      (n.toNat ≤ termBuffSize → a = [] ∨ n.toNat ≤ a.length) ∧
        (termBuffSize < n.toNat → FieldBlank args → CharBelow mem n) := by
  rcases Nat.lt_or_ge termBuffSize n.toNat with hn | hn
  · -- more than the field holds: the loops run over the whole field
    cases a with
    | nil =>
        have hdue : ([] : List UInt8) = [] ∨ n.toNat < ([] : List UInt8).length + 1 := Or.inl rfl
        rw [and_iff_right fun hle => absurd hle (by omega), imp_iff_right hn,
          ← returned_empty_iff hn hargs.zero]
        exact ⟨fun h => h.failed.2 hdue, fun h => ⟨iff_of_true h hdue, fun hnot => absurd hdue hnot⟩⟩
    | cons c a =>
        have hfirst : args 0 = c := hargs.getElem (Nat.succ_pos _)
        have hchar : ¬ Blank (some (args 0)) := by
          rintro (hblank | hnul)
          · exact hspace (hblank ▸ congrArg some hfirst.symm)
          · exact hargs.ne_zero (Nat.succ_pos _) (Option.some.inj hnul)
        have hfield : ¬ FieldBlank args := fun h =>
          hchar ((h 0 (by decide)).imp (congrArg some) (congrArg some))
        have hnot : ¬ (c :: a = [] ∨ n.toNat < (c :: a).length + 1) := by
          rintro (hnil | hlt)
          · cases hnil
          · omega
        obtain ⟨hsucceeds, hzero⟩ := @returned_args mem n args hn hchar
        refine iff_of_true ⟨iff_of_false ?_ hnot, fun _ => hsucceeds⟩
          ⟨fun hle => absurd hle (by omega), fun _ hblank => absurd hblank hfield⟩
        rintro ⟨fuel, mem', hrun⟩
        exact absurd (hzero fuel _ mem' hrun) (by decide)
  · -- up to 128 bytes the call fails, whatever the arguments are
    have hfails : ∃ fuel mem', (getargsRun args mem n fuel).returned = some (-1, mem') :=
      ⟨0, _, by rw [getargsRun_short hn]⟩
    constructor
    · rintro ⟨hfailed, -⟩
      refine ⟨fun _ => (hfailed.1 hfails).imp_right Nat.le_of_lt_succ, fun hlt => ?_⟩
      omega
    · rintro ⟨hsmall, -⟩
      have hdue := (hsmall hn).imp_right Nat.lt_succ_of_le
      exact ⟨iff_of_true hfails hdue, fun hnot => absurd hdue hnot⟩

/-- The argument `ab` and a buffer of 200 bytes. -/
theorem reportsFailure_ab :
    ReportsFailure [97, 98] (fun i => ([97, 98] : List UInt8).getD i 0) (fun _ => none) 200 := by
  refine (reportsFailure_iff ⟨fun _ _ => rfl, by simp⟩ (by decide) (by decide) _ _).2 ⟨?_, ?_⟩
  · intro hle
    exact absurd hle (by decide)
  · intro _ hblank
    exact absurd (hblank 0 (by decide)) (by decide)

/-- The argument `a` fits a buffer of two bytes and is refused. -/
theorem not_reportsFailure :
    ¬ ∀ (a : List UInt8) (args : Bytes) (mem : Around) (n : UInt32), Spells args a →
      a.length < termBuffSize → a.head? ≠ some 32 → ReportsFailure a args mem n := by
  intro hall
  have hreports := hall [97] (fun i => ([97] : List UInt8).getD i 0) (fun _ => none) 2
    ⟨fun _ _ => rfl, by simp⟩ (by decide) (by decide)
  rcases hreports.failed.1 ⟨0, _, by rw [getargsRun_short (by decide)]⟩ with hnil | hlt
  · cases hnil
  · exact absurd hlt (by decide)

end BaseOs
