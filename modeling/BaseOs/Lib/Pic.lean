import Mathlib

set_option autoImplicit false

/-! # The 8259A interrupt controller

One chip takes eight request lines. Bytes reach it through two ports: a byte on the first is a command, and
what a byte on the second one means depends on how far the chip's setting up has come (`Expects`). The chip
keeps the requests, also those of lines that are masked. A line is let through when it is not masked and no
line of its own or a higher priority is in service; the chip then names the line's vector and counts it in
service until it is told of the end of the interrupt.

Two chips in cascade make sixteen lines: the second one asks for service through line 2 of the first. The
commands that rotate priorities are not part of the model, nor is the vector the chip makes up when a request
is withdrawn while the processor takes it. -/

namespace Pic

/-- What a byte on the data port means to the chip. -/
inductive Expects
  | icw2
  | icw3
  | icw4
  | mask
  deriving DecidableEq

/-- The registers of a chip: the setup words, the mask register, the interrupt request register and the
    in-service register. -/
structure Chip where
  expects : Expects
  icw1 : BitVec 8
  icw2 : BitVec 8
  icw3 : BitVec 8
  icw4 : BitVec 8
  imr : BitVec 8
  irr : BitVec 8
  isr : BitVec 8

/-- The bit of line `n` in a register. -/
def line (n : Nat) : BitVec 8 := 1#8 <<< n

namespace Chip

variable (c : Chip)

/-- A byte on the command port: `ICW1` starts the setup, a specific end of interrupt takes one line out of
    service, any other end of interrupt the one of highest priority. -/
def command (b : BitVec 8) : Chip :=
  if b.getLsbD 4 then { c with expects := .icw2, icw1 := b, icw4 := 0, imr := 0, irr := 0, isr := 0 }
  else if b.getLsbD 3 then c
  else if b >>> 5 = 3 then { c with isr := c.isr &&& ~~~line (b.toNat % 8) }
  else if b >>> 5 = 1 then { c with isr := c.isr &&& (c.isr - 1) }
  else c

/-- What comes after `ICW3`, or in place of it. -/
def afterIcw3 : Expects := if c.icw1.getLsbD 0 then .icw4 else .mask

/-- A byte on the data port. -/
def data (b : BitVec 8) : Chip :=
  match c.expects with
  | .icw2 => { c with expects := if c.icw1.getLsbD 1 then c.afterIcw3 else .icw3, icw2 := b }
  | .icw3 => { c with expects := c.afterIcw3, icw3 := b }
  | .icw4 => { c with expects := .mask, icw4 := b }
  | .mask => { c with imr := b }

/-- The device on line `n` raises it. -/
def ask (n : Nat) : Chip := { c with irr := c.irr ||| line n }

/-- The device on line `n` lowers it again. -/
def withdraw (n : Nat) : Chip := { c with irr := c.irr &&& ~~~line n }

/-- Is a request on line `n` let through? -/
def accepts (n : Nat) : Bool := !c.imr.getLsbD n && (List.range (n + 1)).all fun m => !c.isr.getLsbD m

/-- The line to be served: of those with a request that is let through, the one of highest priority. -/
def next? : Option Nat := (List.range 8).find? fun n => c.irr.getLsbD n && c.accepts n

/-- The request on line `n` is taken. The line goes into service, unless the chip ends interrupts by itself. -/
def acknowledge (n : Nat) : Chip :=
  if c.icw4.getLsbD 1 then c.withdraw n else { c.withdraw n with isr := c.isr ||| line n }

/-- The vector of line `n`: the high bits are from `ICW2`. -/
def vector (n : Nat) : Nat := c.icw2.toNat / 8 * 8 + n

/-- The chip is set up for the vectors from `base` on, takes masks, and counts what is in service. -/
structure Ready (base : Nat) (c : Chip) : Prop where
  expects : c.expects = .mask
  base : ∀ n, c.vector n = base + n
  counts : c.icw4.getLsbD 1 = false

variable {c} {base : Nat} {b : BitVec 8} {n : Nat}

theorem getLsbD_line (n : Nat) {i : Nat} (hi : i < 8) : (line n).getLsbD i = decide (i = n) := by
  unfold line
  rw [BitVec.getLsbD_shiftLeft]
  by_cases hlt : i < n
  · simp [hlt, show i ≠ n by omega]
  · simp [hi, hlt, BitVec.getLsbD_one, Nat.sub_eq_zero_iff_le, show (i ≤ n) = (i = n) by simp; omega]

theorem getLsbD_ask (n : Nat) {i : Nat} (hi : i < 8) :
    (c.ask n).irr.getLsbD i = (c.irr.getLsbD i || decide (i = n)) := by
  rw [ask, BitVec.getLsbD_or, getLsbD_line n hi]

theorem getLsbD_withdraw (n : Nat) {i : Nat} (hi : i < 8) :
    (c.withdraw n).irr.getLsbD i = (c.irr.getLsbD i && !decide (i = n)) := by
  rw [withdraw, BitVec.getLsbD_and, BitVec.getLsbD_not, getLsbD_line n hi]
  simp [hi]

/-- Without a request there is none to lower. -/
theorem withdraw_off (hoff : c.irr.getLsbD n = false) : c.withdraw n = c := by
  have hirr : (c.withdraw n).irr = c.irr := by
    ext i hi
    rw [← BitVec.getLsbD_eq_getElem, ← BitVec.getLsbD_eq_getElem, getLsbD_withdraw n hi]
    by_cases hin : i = n
    · simp [hin, hoff]
    · simp [hin]
  calc c.withdraw n = { c with irr := (c.withdraw n).irr } := rfl
    _ = c := by rw [hirr]

/-- A request that is raised and lowered leaves nothing behind. -/
theorem withdraw_ask (hoff : c.irr.getLsbD n = false) : (c.ask n).withdraw n = c := by
  have hirr : ((c.ask n).withdraw n).irr = (c.withdraw n).irr := by
    ext i hi
    rw [← BitVec.getLsbD_eq_getElem, ← BitVec.getLsbD_eq_getElem, getLsbD_withdraw n hi, getLsbD_ask n hi,
      getLsbD_withdraw n hi]
    by_cases hin : i = n
    · simp [hin]
    · simp [hin]
  calc (c.ask n).withdraw n = { c with irr := ((c.ask n).withdraw n).irr } := rfl
    _ = c.withdraw n := by rw [hirr]; rfl
    _ = c := withdraw_off hoff

/-- `ICW1` asking for all four words, then the other three: the chip is ready, nothing is masked, requested or
    in service. -/
theorem setUp_ready {icw1 icw2 icw3 icw4 : BitVec 8} (hfirst : icw1.getLsbD 4 = true)
    (hcascade : icw1.getLsbD 1 = false) (hfourth : icw1.getLsbD 0 = true) (hbase : icw2.toNat / 8 * 8 = base)
    (hcounts : icw4.getLsbD 1 = false) (c : Chip) :
    Ready base ((((c.command icw1).data icw2).data icw3).data icw4) ∧
      ((((c.command icw1).data icw2).data icw3).data icw4).icw3 = icw3 ∧
      ((((c.command icw1).data icw2).data icw3).data icw4).imr = 0 ∧
      ((((c.command icw1).data icw2).data icw3).data icw4).irr = 0 ∧
      ((((c.command icw1).data icw2).data icw3).data icw4).isr = 0 := by
  have hcommand : c.command icw1
      = { c with expects := .icw2, icw1 := icw1, icw4 := 0, imr := 0, irr := 0, isr := 0 } := if_pos hfirst
  rw [hcommand]
  simp only [data, afterIcw3, hcascade, hfourth, if_true, Bool.false_eq_true, if_false, and_true]
  refine ⟨rfl, fun n => ?_, hcounts⟩
  unfold vector
  rw [hbase]

/-- A ready chip takes a byte on its data port as its mask. -/
theorem Ready.data (h : Ready base c) (b : BitVec 8) : c.data b = { c with imr := b } := by
  unfold Chip.data
  rw [h.expects]

theorem Ready.setMask (h : Ready base c) (b : BitVec 8) : Ready base { c with imr := b } :=
  ⟨h.expects, h.base, h.counts⟩

theorem Ready.ask (h : Ready base c) (n : Nat) : Ready base (c.ask n) := ⟨h.expects, h.base, h.counts⟩

theorem Ready.withdraw (h : Ready base c) (n : Nat) : Ready base (c.withdraw n) := ⟨h.expects, h.base, h.counts⟩

/-- With nothing in service only the mask decides. -/
theorem accepts_idle (hidle : c.isr = 0) (n : Nat) : c.accepts n = !c.imr.getLsbD n := by
  unfold accepts
  rw [hidle]
  simp

/-- With nothing in service the next line is one that is not masked. -/
theorem next?_idle (hidle : c.isr = 0) :
    c.next? = (List.range 8).find? fun n => c.irr.getLsbD n && !c.imr.getLsbD n := by
  unfold next?
  simp only [accepts_idle hidle]

theorem Ready.acknowledge (h : Ready base c) (n : Nat) :
    c.acknowledge n = { c.withdraw n with isr := c.isr ||| line n } := by
  unfold Chip.acknowledge
  rw [h.counts]
  rfl

/-- An end of interrupt for line `n`. -/
def endOf (n : Nat) : BitVec 8 := 0x60 ||| BitVec.ofNat 8 n

theorem command_endOf (hn : n < 8) : c.command (endOf n) = { c with isr := c.isr &&& ~~~line n } := by
  obtain ⟨hfirst, hother, hspecific, hline⟩ : (endOf n).getLsbD 4 = false ∧ (endOf n).getLsbD 3 = false ∧
      endOf n >>> 5 = 3 ∧ (endOf n).toNat % 8 = n := by
    revert n
    decide
  unfold command
  rw [hfirst, hother, hspecific, hline]
  simp

/-- A line that goes into service when nothing is, and ends, leaves nothing in service. -/
theorem Ready.service (h : Ready base c) (hidle : c.isr = 0) (hn : n < 8) :
    (c.acknowledge n).command (endOf n) = c.withdraw n := by
  have hnone : (c.isr ||| line n) &&& ~~~line n = c.isr := by
    rw [hidle]
    simp
  rw [h.acknowledge, command_endOf hn]
  simp only [Chip.withdraw, hnone]

end Chip

/-! ## Two chips -/

/-- Sixteen lines: 8 to 15 are those of the second chip, which is wired to line 2 of the first. -/
structure Cascade where
  master : Chip
  slave : Chip

namespace Cascade

variable (p : Cascade)

/-- A device raises line `n`, or lowers it again. -/
def ask (n : Nat) : Cascade :=
  if n < 8 then { p with master := p.master.ask n } else { p with slave := p.slave.ask (n - 8) }

def withdraw (n : Nat) : Cascade :=
  if n < 8 then { p with master := p.master.withdraw n } else { p with slave := p.slave.withdraw (n - 8) }

/-- The first chip with what it sees on line 2: the second one asks for service. -/
def wired : Chip := if p.slave.next?.isSome then p.master.ask 2 else p.master

/-- The processor takes an interrupt, if there is one: its vector, and the chips then. The first chip leaves
    the vector of line 2 to the second one if it has been told of it, and that one answers to the number it
    has been told. -/
def take : Option (Nat × Cascade) :=
  match p.wired.next? with
  | none => none
  | some n =>
    if n = 2 ∧ p.master.icw3.getLsbD 2 then
      match p.slave.next? with
      | none => none
      | some m =>
        if p.slave.icw3.toNat % 8 = 2 then
          some (p.slave.vector m, ⟨p.master.acknowledge 2, p.slave.acknowledge m⟩)
        else none
    else some (p.master.vector n, { p with master := p.master.acknowledge n })

/-- Is line `n` unmasked, with the line of the second chip on its way? -/
def unmasked (n : Nat) : Bool :=
  if n < 8 then !p.master.imr.getLsbD n else !p.slave.imr.getLsbD (n - 8) && !p.master.imr.getLsbD 2

/-- Is there a request on line `n`? -/
def asked (n : Nat) : Bool := if n < 8 then p.master.irr.getLsbD n else p.slave.irr.getLsbD (n - 8)

/-- The lines of devices, from the highest priority to the lowest. -/
def priority : List Nat := [0, 1] ++ (List.range 8).map (· + 8) ++ [3, 4, 5, 6, 7]

/-- Both chips are ready and told of each other, nothing is in service, and no device is on line 2. -/
structure Idle (base slaveBase : Nat) (p : Cascade) : Prop where
  master : Chip.Ready base p.master
  slave : Chip.Ready slaveBase p.slave
  told : p.master.icw3.getLsbD 2 = true ∧ p.slave.icw3.toNat % 8 = 2
  masterIdle : p.master.isr = 0
  slaveIdle : p.slave.isr = 0
  wire : p.master.irr.getLsbD 2 = false

/-- The vector of line `n`. -/
def vectorOf (base slaveBase n : Nat) : Nat := if n < 8 then base + n else slaveBase + (n - 8)

/-- The chips with line `n` in service and nothing else. -/
def serving (n : Nat) : Cascade :=
  if n < 8 then { p with master := p.master.acknowledge n }
  else ⟨p.master.acknowledge 2, p.slave.acknowledge (n - 8)⟩

variable {p} {base slaveBase n : Nat}

theorem Idle.ask (h : Idle base slaveBase p) (hn : n ≠ 2) : Idle base slaveBase (p.ask n) := by
  unfold Cascade.ask
  split_ifs
  · refine ⟨h.master.ask n, h.slave, h.told, h.masterIdle, h.slaveIdle, ?_⟩
    rw [Chip.getLsbD_ask n (by decide), h.wire]
    simpa using hn.symm
  · exact ⟨h.master, h.slave.ask (n - 8), h.told, h.masterIdle, h.slaveIdle, h.wire⟩

theorem Idle.withdraw (h : Idle base slaveBase p) (n : Nat) : Idle base slaveBase (p.withdraw n) := by
  unfold Cascade.withdraw
  split_ifs
  · refine ⟨h.master.withdraw n, h.slave, h.told, h.masterIdle, h.slaveIdle, ?_⟩
    rw [Chip.getLsbD_withdraw n (by decide), h.wire]
    rfl
  · exact ⟨h.master, h.slave.withdraw (n - 8), h.told, h.masterIdle, h.slaveIdle, h.wire⟩

theorem asked_ask (p : Cascade) (n : Nat) {i : Nat} (hi : i < 16) :
    (p.ask n).asked i = (p.asked i || decide (i = n)) := by
  unfold asked Cascade.ask
  by_cases hi8 : i < 8
  · by_cases hn : n < 8
    · simp only [if_pos hi8, if_pos hn, Chip.getLsbD_ask n hi8]
    · simp [hi8, hn, show i ≠ n by omega]
  · by_cases hn : n < 8
    · simp [hi8, hn, show i ≠ n by omega]
    · simp only [if_neg hi8, if_neg hn, Chip.getLsbD_ask (n - 8) (show i - 8 < 8 by omega),
        show (i - 8 = n - 8) = (i = n) by simp; omega]

theorem asked_withdraw (p : Cascade) (n : Nat) {i : Nat} (hi : i < 16) :
    (p.withdraw n).asked i = (p.asked i && !decide (i = n)) := by
  unfold asked Cascade.withdraw
  by_cases hi8 : i < 8
  · by_cases hn : n < 8
    · simp only [if_pos hi8, if_pos hn, Chip.getLsbD_withdraw n hi8]
    · simp [hi8, hn, show i ≠ n by omega]
  · by_cases hn : n < 8
    · simp [hi8, hn, show i ≠ n by omega]
    · simp only [if_neg hi8, if_neg hn, Chip.getLsbD_withdraw (n - 8) (show i - 8 < 8 by omega),
        show (i - 8 = n - 8) = (i = n) by simp; omega]

theorem withdraw_ask (p : Cascade) (hoff : p.asked n = false) : (p.ask n).withdraw n = p := by
  unfold asked at hoff
  unfold Cascade.ask Cascade.withdraw
  split_ifs at hoff ⊢
  · simp only [Chip.withdraw_ask hoff]
  · simp only [Chip.withdraw_ask hoff]

theorem wired_masks (p : Cascade) : p.wired.isr = p.master.isr ∧ p.wired.imr = p.master.imr := by
  unfold wired
  split_ifs
  · exact ⟨rfl, rfl⟩
  · exact ⟨rfl, rfl⟩

theorem Idle.wired_asked (h : Idle base slaveBase p) : p.wired.irr.getLsbD 2 = p.slave.next?.isSome := by
  unfold wired
  cases hsome : p.slave.next?.isSome with
  | true =>
      rw [if_pos rfl, Chip.getLsbD_ask 2 (by decide)]
      simp
  | false =>
      rw [if_neg (by decide)]
      exact h.wire

theorem wired_own (p : Cascade) (hn : n < 8) (hn2 : n ≠ 2) :
    p.wired.irr.getLsbD n = p.master.irr.getLsbD n := by
  unfold wired
  split_ifs
  · simp [Chip.getLsbD_ask 2 hn, hn2]
  · rfl

/-- The lines of the first chip with that of the second one among them. -/
theorem Idle.wired_next? (h : Idle base slaveBase p) :
    p.wired.next? = ([0, 1].find? fun n => p.asked n && p.unmasked n).or
      ((if p.slave.next?.isSome && !p.master.imr.getLsbD 2 then some 2 else none).or
        ([3, 4, 5, 6, 7].find? fun n => p.asked n && p.unmasked n)) := by
  have hrange : List.range 8 = [0, 1] ++ ([2] ++ [3, 4, 5, 6, 7]) := rfl
  have hown : ∀ ns : List Nat, (∀ n ∈ ns, n < 8 ∧ n ≠ 2) →
      (ns.find? fun n => p.wired.irr.getLsbD n && !p.master.imr.getLsbD n)
        = ns.find? fun n => p.asked n && p.unmasked n := by
    intro ns hns
    refine List.find?_congr fun n hn => ?_
    obtain ⟨hlt, hn2⟩ := hns n hn
    rw [wired_own p hlt hn2, asked, unmasked, if_pos hlt, if_pos hlt]
  have hsecond : ([2].find? fun n => p.wired.irr.getLsbD n && !p.master.imr.getLsbD n)
      = if p.slave.next?.isSome && !p.master.imr.getLsbD 2 then some 2 else none := by
    simp only [List.find?_cons, List.find?_nil, h.wired_asked]
    split
    · next htrue => rw [if_pos htrue]
    · next hfalse => rw [if_neg (by rw [hfalse]; decide)]
  rw [Chip.next?_idle ((wired_masks p).1.trans h.masterIdle), (wired_masks p).2, hrange, List.find?_append,
    List.find?_append, hown _ (by decide), hown [3, 4, 5, 6, 7] (by decide), hsecond]

/-- The lines of the second chip. -/
theorem Idle.slave_next? (h : Idle base slaveBase p) :
    (((List.range 8).map (· + 8)).find? fun n => p.asked n && p.unmasked n)
      = if p.master.imr.getLsbD 2 then none else p.slave.next?.map (· + 8) := by
  rw [List.find?_map, Chip.next?_idle h.slaveIdle]
  have hline : ((fun n => p.asked n && p.unmasked n) ∘ (· + 8)) =
      fun n => (p.slave.irr.getLsbD n && !p.slave.imr.getLsbD n) && !p.master.imr.getLsbD 2 := by
    funext n
    simp [asked, unmasked, Bool.and_assoc]
  rw [hline]
  cases p.master.imr.getLsbD 2 with
  | true => simp
  | false => simp

/-- A line of the first chip. -/
theorem Idle.take_own (h : Idle base slaveBase p) (hnext : p.wired.next? = some n) (hn : n < 8) (hn2 : n ≠ 2) :
    p.take = some (vectorOf base slaveBase n, p.serving n) := by
  unfold Cascade.take vectorOf serving
  simp only [hnext, hn2, false_and, if_false, hn, if_true, h.master.base]

/-- A line of the second chip. -/
theorem Idle.take_slave (h : Idle base slaveBase p) (hnext : p.wired.next? = some 2) {m : Nat}
    (hslave : p.slave.next? = some m) :
    p.take = some (vectorOf base slaveBase (m + 8), p.serving (m + 8)) := by
  unfold Cascade.take vectorOf serving
  simp only [hnext, hslave, h.told.1, h.told.2, and_self, if_true, h.slave.base, Nat.add_sub_cancel,
    if_neg (show ¬ m + 8 < 8 by omega)]

/-- From an idle pair the processor is given the line of highest priority that is asked for and unmasked,
    with its own vector. -/
theorem Idle.take (h : Idle base slaveBase p) :
    p.take = (priority.find? fun n => p.asked n && p.unmasked n).map fun n =>
      (vectorOf base slaveBase n, p.serving n) := by
  have hnext := h.wired_next?
  unfold priority
  rw [List.append_assoc, List.find?_append, List.find?_append, h.slave_next?]
  -- lines 0 and 1 come before the slave's eight, and these before 3 to 7
  cases hfirst : [0, 1].find? fun n => p.asked n && p.unmasked n with
  | some n =>
      have hn : n < 8 ∧ n ≠ 2 := by
        have hmem := List.mem_of_find?_eq_some hfirst
        simp only [List.mem_cons, List.not_mem_nil, or_false] at hmem
        omega
      rw [hfirst, Option.some_or] at hnext
      exact h.take_own hnext hn.1 hn.2
  | none =>
      rw [hfirst, Option.none_or] at hnext
      rw [Option.none_or]
      by_cases hslave : (p.slave.next?.isSome && !p.master.imr.getLsbD 2) = true
      · obtain ⟨hsome, hopen⟩ := Bool.and_eq_true_iff.1 hslave
        obtain ⟨m, hm⟩ := Option.isSome_iff_exists.1 hsome
        rw [if_pos hslave, Option.some_or] at hnext
        rw [if_neg (by simpa using hopen), hm]
        exact h.take_slave hnext hm
      · have hnone : (if p.master.imr.getLsbD 2 then none else p.slave.next?.map (· + 8)) = none := by
          cases hmasked : p.master.imr.getLsbD 2 with
          | true => rfl
          | false =>
              rw [hmasked, Bool.not_false, Bool.and_true, Option.isSome_iff_ne_none, not_ne_iff] at hslave
              rw [hslave]
              rfl
        rw [if_neg hslave, Option.none_or] at hnext
        rw [hnone, Option.none_or]
        cases hlast : [3, 4, 5, 6, 7].find? fun n => p.asked n && p.unmasked n with
        | some n =>
            have hn : n < 8 ∧ n ≠ 2 := by
              have hmem := List.mem_of_find?_eq_some hlast
              simp only [List.mem_cons, List.not_mem_nil, or_false] at hmem
              omega
            exact h.take_own (hnext.trans hlast) hn.1 hn.2
        | none =>
            unfold Cascade.take
            rw [hnext, hlast]
            rfl

end Cascade

end Pic
