import BaseOs.Interrupts
import BaseOs.Lib.Runs

set_option autoImplicit false

/-! # The lines and their handlers

What the drivers mean by `enable_irq` and `disable_irq` is a set of lines, and what a device means by its
line is one request at a time. The driver of the controllers keeps two masks and writes them to two chips,
the chips keep the requests, and an interrupt finds its handler by a vector that the chips were told at boot;
`interrupts_refine` says that all of this together is those two sets, and `interrupts_handled` what it comes
to for the lines that are enabled at boot. -/

namespace BaseOs

/-! ## Entries of the table -/

/-- `SET_IDT_ENTRY` cuts an address in two, and the processor puts it together again. -/
theorem offset_setIdtEntry (d : IdtDesc) (handler : BitVec 32) : (setIdtEntry d handler).offset = handler := by
  unfold IdtDesc.offset setIdtEntry
  ext i hi
  simp only [BitVec.getElem_append, BitVec.getElem_setWidth, BitVec.getLsbD_ushiftRight, BitVec.getLsbD_and]
  split
  · next hlow => interval_cases i <;> simp
  · next hhigh => interval_cases i <;> simp_all

theorem routineAt_address (sym : Symbols) (r : Routine) : routineAt sym (sym.address r) = some r := by
  unfold routineAt
  have hall : r ∈ Routine.all := by
    cases r <;> simp [Routine.all]
  cases hfind : Routine.all.find? fun r' => sym.address r' == sym.address r with
  | none => exact absurd (beq_self_eq_true _) (List.find?_eq_none.1 hfind r hall)
  | some r' =>
      have hsame := List.find?_some hfind
      exact congrArg some (sym.apart (beq_iff_eq.1 hsame))

/-- An entry that is not present leads nowhere. -/
theorem enter_absent {idt : Nat → IdtDesc} {vector : Nat} (h : (idt vector).present = false) (cpl : Option Nat) :
    enter idt cpl vector = none := by
  unfold enter IdtDesc.isGate
  simp [h]

/-- A device's interrupt goes where its entry leads. -/
theorem enter_entry {idt : Nat → IdtDesc} {vector : Nat} {d : IdtDesc} {handler : BitVec 32}
    (h : idt vector = setIdtEntry d handler) (hgate : d.isGate = true) :
    enter idt none vector = some handler := by
  unfold enter
  have hgate' : (setIdtEntry d handler).isGate = true := hgate
  simp only [h, hgate', offset_setIdtEntry, Option.all_none, Bool.and_self, if_true]

/-- The handler of a line. -/
def routineOf (n : Nat) : Option Routine :=
  if n = pitIrq then some .pit else if n = kbdIrq then some .keyboard else if n = rtcIrq then some .rtc else none

/-- The vectors of the two chips: those of the lines follow each other. -/
theorem vectorOf_eq {n : Nat} (hn : n < 16) : Pic.Cascade.vectorOf 0x20 0x28 n = 0x20 + n := by
  unfold Pic.Cascade.vectorOf
  split_ifs <;> omega

variable {sym : Symbols} {s : Interrupts}

/-- After boot the vector of a line leads to the line's handler, and nowhere if it has none. -/
theorem boot_entries (sym : Symbols) (s : Interrupts) {n : Nat} (hn : n < 16) :
    (enter (bootInterrupts sym s).idt none (Pic.Cascade.vectorOf 0x20 0x28 n)).bind (routineAt sym) = routineOf n := by
  rw [vectorOf_eq hn]
  set idt := (bootInterrupts sym s).idt with hidt
  have hpit : idt 32 = setIdtEntry { initialEntry (s.idt 32) false with present := true } (sym.address .pit) := rfl
  have hkeyboard : idt 33 = setIdtEntry { initialEntry (s.idt 33) false with present := true }
      (sym.address .keyboard) := rfl
  have hrtc : idt 40 = setIdtEntry { initialEntry (s.idt 40) false with present := true } (sym.address .rtc) := rfl
  by_cases h0 : n = 0
  · subst h0
    rw [enter_entry hpit rfl]
    exact routineAt_address sym .pit
  by_cases h1 : n = 1
  · subst h1
    rw [enter_entry hkeyboard rfl]
    exact routineAt_address sym .keyboard
  by_cases h8 : n = 8
  · subst h8
    rw [enter_entry hrtc rfl]
    exact routineAt_address sym .rtc
  · have habsent : (idt (0x20 + n)).present = false := by
      interval_cases n <;> first | rfl | omega
    rw [enter_absent habsent]
    simp only [routineOf, pitIrq, kbdIrq, rtcIrq, h0, h1, h8, if_false]
    rfl

/-! ## The masks -/

theorem getLsbD_clearBit (mask : BitVec 8) {n i : Nat} (hi : i < 8) :
    (Pics.clearBit mask n).getLsbD i = (mask.getLsbD i && !decide (i = n)) := by
  unfold Pics.clearBit
  simp only [BitVec.getLsbD_setWidth, BitVec.getLsbD_and, BitVec.getLsbD_not, BitVec.getLsbD_shiftLeft,
    BitVec.getLsbD_one, hi, show i < 32 by omega, decide_true, Bool.true_and]
  by_cases hn : i < n
  · simp [hn, show i ≠ n by omega]
  · simp [hn, Nat.sub_eq_zero_iff_le, show (i ≤ n) = (i = n) by simp; omega]

theorem getLsbD_setBit (mask : BitVec 8) {n i : Nat} (hi : i < 8) :
    (Pics.setBit mask n).getLsbD i = (mask.getLsbD i || decide (i = n)) := by
  unfold Pics.setBit
  simp only [BitVec.getLsbD_setWidth, BitVec.getLsbD_or, BitVec.getLsbD_shiftLeft, BitVec.getLsbD_one, hi,
    show i < 32 by omega, decide_true, Bool.true_and]
  by_cases hn : i < n
  · simp [hn, show i ≠ n by omega]
  · simp [hn, Nat.sub_eq_zero_iff_le, show (i ≤ n) = (i = n) by simp; omega]

/-! ## The driver and the chips -/

/-- What the chips are about: the lines that are enabled, and those with a request. -/
structure LinesState where
  on : Nat → Bool
  asked : Nat → Bool

/-- The driver's state for the lines: both chips are set up and idle, their masks are the driver's, a bit is
    clear for each line that is enabled, and the chips keep the requests. -/
structure Driven (lines : LinesState) (p : Pics) : Prop where
  idle : p.chips.Idle 0x20 0x28
  master : p.chips.master.imr = p.masterMask
  slave : p.chips.slave.imr = p.slaveMask
  low : ∀ i < 8, p.masterMask.getLsbD i = !lines.on i
  high : ∀ i < 8, p.slaveMask.getLsbD i = !lines.on (i + 8)
  asked : ∀ n < 16, p.chips.asked n = lines.asked n

variable {lines : LinesState} {on : Nat → Bool} {p : Pics} {n : Nat}

theorem Driven.setMaster (h : Driven lines p) {mask : BitVec 8} (hlow : ∀ i < 8, mask.getLsbD i = !on i)
    (hhigh : ∀ i < 8, on (i + 8) = lines.on (i + 8)) :
    Driven { lines with on := on } ({ p with masterMask := mask }.outb mask masterMd) := by
  have hout : { p with masterMask := mask }.outb mask masterMd
      = { p with
          masterMask := mask
          chips := { p.chips with master := { p.chips.master with imr := mask } } } := by
    rw [← h.idle.master.data mask]
    rfl
  rw [hout]
  exact ⟨⟨h.idle.master.setMask mask, h.idle.slave, h.idle.told, h.idle.masterIdle, h.idle.slaveIdle,
    h.idle.wire⟩, rfl, h.slave, hlow, fun i hi => (h.high i hi).trans (congrArg not (hhigh i hi).symm), h.asked⟩

theorem Driven.setSlave (h : Driven lines p) {mask : BitVec 8} (hlow : ∀ i < 8, on i = lines.on i)
    (hhigh : ∀ i < 8, mask.getLsbD i = !on (i + 8)) :
    Driven { lines with on := on } ({ p with slaveMask := mask }.outb mask slaveMd) := by
  have hout : { p with slaveMask := mask }.outb mask slaveMd
      = { p with
          slaveMask := mask
          chips := { p.chips with slave := { p.chips.slave with imr := mask } } } := by
    rw [← h.idle.slave.data mask]
    rfl
  rw [hout]
  exact ⟨⟨h.idle.master, h.idle.slave.setMask mask, h.idle.told, h.idle.masterIdle, h.idle.slaveIdle,
    h.idle.wire⟩, h.master, rfl, fun i hi => (h.low i hi).trans (congrArg not (hlow i hi).symm), hhigh, h.asked⟩

theorem Driven.enableIrq (h : Driven lines p) (n : Nat) :
    Driven { lines with on := Function.update lines.on n true } (p.enableIrq n) := by
  unfold Pics.enableIrq
  split_ifs with hn
  · refine h.setMaster (fun i hi => ?_) fun i hi => Function.update_of_ne (by omega) _ _
    rw [getLsbD_clearBit _ hi, h.low i hi]
    by_cases hi' : i = n
    · simp [hi']
    · simp [hi']
  · refine h.setSlave (fun i hi => Function.update_of_ne (by omega) _ _) fun i hi => ?_
    rw [getLsbD_clearBit _ hi, h.high i hi]
    by_cases hi' : i + 8 = n
    · simp [← hi']
    · simp [hi', show i ≠ n - 8 by omega]

theorem Driven.disableIrq (h : Driven lines p) (n : Nat) :
    Driven { lines with on := Function.update lines.on n false } (p.disableIrq n) := by
  unfold Pics.disableIrq
  split_ifs with hn
  · refine h.setMaster (fun i hi => ?_) fun i hi => Function.update_of_ne (by omega) _ _
    rw [getLsbD_setBit _ hi, h.low i hi]
    by_cases hi' : i = n
    · simp [hi']
    · simp [hi']
  · refine h.setSlave (fun i hi => Function.update_of_ne (by omega) _ _) fun i hi => ?_
    rw [getLsbD_setBit _ hi, h.high i hi]
    by_cases hi' : i + 8 = n
    · simp [← hi']
    · simp [hi', show i ≠ n - 8 by omega]

/-- `i8259_init` sets the chips up from whatever state they are in, with line 2 as the only one enabled. -/
theorem i8259Init_driven (p : Pics) :
    Driven ⟨Function.update (fun _ => false) slaveIrq true, fun _ => false⟩ p.i8259Init := by
  obtain ⟨hmaster, htold, -, hasked, hidle⟩ :=
    @Pic.Chip.setUp_ready 0x20 icw1 icw2Master icw3Master icw4 rfl rfl rfl rfl rfl p.chips.master
  obtain ⟨hslave, htold', -, hasked', hidle'⟩ :=
    @Pic.Chip.setUp_ready 0x28 icw1 icw2Slave icw3Slave icw4 rfl rfl rfl rfl rfl p.chips.slave
  set master := (((p.chips.master.command icw1).data icw2Master).data icw3Master).data icw4 with hm
  set slave := (((p.chips.slave.command icw1).data icw2Slave).data icw3Slave).data icw4 with hs
  have hinit : p.i8259Init
      = Pics.enableIrq ⟨byteMask, byteMask, ⟨master.data byteMask, slave.data byteMask⟩⟩ slaveIrq :=
    rfl
  rw [hinit, hmaster.data, hslave.data]
  have hbits : ∀ i < 8, byteMask.getLsbD i = true := by decide
  refine @Driven.enableIrq ⟨fun _ => false, fun _ => false⟩ _
    ⟨⟨hmaster.setMask _, hslave.setMask _, ⟨?_, ?_⟩, hidle, hidle', ?_⟩, rfl, rfl, hbits, hbits, fun n _ => ?_⟩ _
  · rw [htold]
    rfl
  · rw [htold']
    rfl
  · simp only [hasked]
    exact BitVec.getLsbD_zero
  · unfold Pic.Cascade.asked
    simp only [hasked, hasked']
    split_ifs
    · exact BitVec.getLsbD_zero
    · exact BitVec.getLsbD_zero

/-- A device raises its line, which is not the one the second chip is on. -/
theorem Driven.ask (h : Driven lines p) (hwire : n ≠ slaveIrq) :
    Driven { lines with asked := Function.update lines.asked n true } { p with chips := p.chips.ask n } := by
  have hmasks : (p.chips.ask n).master.imr = p.chips.master.imr ∧ (p.chips.ask n).slave.imr = p.chips.slave.imr := by
    unfold Pic.Cascade.ask
    split_ifs
    · exact ⟨rfl, rfl⟩
    · exact ⟨rfl, rfl⟩
  refine ⟨h.idle.ask hwire, hmasks.1.trans h.master, hmasks.2.trans h.slave, h.low, h.high, fun i hi => ?_⟩
  rw [Pic.Cascade.asked_ask p.chips n hi, h.asked i hi]
  by_cases hin : i = n
  · simp [hin]
  · simp [hin]

theorem Driven.withdraw (h : Driven lines p) (n : Nat) :
    Driven { lines with asked := Function.update lines.asked n false } { p with chips := p.chips.withdraw n } := by
  have hmasks : (p.chips.withdraw n).master.imr = p.chips.master.imr ∧
      (p.chips.withdraw n).slave.imr = p.chips.slave.imr := by
    unfold Pic.Cascade.withdraw
    split_ifs
    · exact ⟨rfl, rfl⟩
    · exact ⟨rfl, rfl⟩
  refine ⟨h.idle.withdraw n, hmasks.1.trans h.master, hmasks.2.trans h.slave, h.low, h.high, fun i hi => ?_⟩
  rw [Pic.Cascade.asked_withdraw p.chips n hi, h.asked i hi]
  by_cases hin : i = n
  · simp [hin]
  · simp [hin]

/-- The end of interrupt that is sent for a line takes it out of service, on both chips if it is a line of
    the second one. -/
theorem Driven.sendEoi (h : Driven lines p) (hn : n < 16) :
    { p with chips := p.chips.serving n }.sendEoi n = { p with chips := p.chips.withdraw n } := by
  unfold Pics.sendEoi Pic.Cascade.serving Pic.Cascade.withdraw
  by_cases hlow : n < 8
  · have hbyte : (eoi ||| BitVec.ofNat 32 n).setWidth 8 = Pic.Chip.endOf n := by
      revert hlow
      revert n
      decide
    rw [if_neg (by omega), hbyte]
    simp only [if_pos hlow, Pics.outb, if_true]
    rw [h.idle.master.service h.idle.masterIdle hlow]
  · have hbyte : (eoi ||| BitVec.ofNat 32 (n - 8)).setWidth 8 = Pic.Chip.endOf (n - 8) := by
      have hlt : n - 8 < 8 := by omega
      generalize n - 8 = m at hlt
      revert m
      decide
    have hcascade : (eoi ||| BitVec.ofNat 32 slaveIrq).setWidth 8 = Pic.Chip.endOf 2 := by decide
    rw [if_pos (by omega), hbyte, hcascade]
    simp only [if_neg hlow]
    have hmaster : (p.chips.master.acknowledge 2).command (Pic.Chip.endOf 2) = p.chips.master :=
      (h.idle.master.service h.idle.masterIdle (by decide)).trans (Pic.Chip.withdraw_off h.idle.wire)
    have hslave := h.idle.slave.service h.idle.slaveIdle (show n - 8 < 8 by omega)
    change ({ p with chips := ⟨(p.chips.master.acknowledge 2).command (Pic.Chip.endOf 2),
      (p.chips.slave.acknowledge (n - 8)).command (Pic.Chip.endOf (n - 8))⟩ } : Pics) = _
    rw [hmaster, hslave]

/-- The lines that get through: those enabled, on the second chip only while line 2 is enabled too. -/
theorem Driven.unmasked (h : Driven lines p) (hn : n < 16) :
    p.chips.unmasked n = (lines.on n && (decide (n < 8) || lines.on 2)) := by
  unfold Pic.Cascade.unmasked
  rw [h.master, h.slave]
  by_cases hlow : n < 8
  · rw [if_pos hlow, h.low n hlow]
    simp [hlow]
  · rw [if_neg hlow, h.high (n - 8) (by omega), h.low 2 (by decide)]
    simp [hlow, Nat.sub_add_cancel (Nat.le_of_not_lt hlow)]

/-! ## Runs -/

/-- What a driver does with a line, or a device, or the processor. -/
inductive LineOp
  | enable (n : Nat)
  | disable (n : Nat)
  | ask (n : Nat)
  | withdraw (n : Nat)
  | take

/-- Is it about a line there is? No device is on the one of the second chip. -/
def LineOp.Valid : LineOp → Prop
  | .enable n | .disable n => n < 16
  | .ask n | .withdraw n => n ≠ slaveIrq
  | .take => True

/-- What happens, and the handler that runs; `none` is an interrupt without one. -/
def Interrupts.step (sym : Symbols) (s : Interrupts) : LineOp → Option (Interrupts × Option Routine)
  | .enable n => some ({ s with pics := s.pics.enableIrq n }, none)
  | .disable n => some ({ s with pics := s.pics.disableIrq n }, none)
  | .ask n => some (s.ask n, none)
  | .withdraw n => some (s.withdraw n, none)
  | .take => s.take sym

/-- The line that is served next: lines 8 to 15 come by way of line 2. -/
def LinesState.next? (lines : LinesState) : Option Nat :=
  Pic.Cascade.priority.find? fun n => lines.asked n && (lines.on n && (decide (n < 8) || lines.on 2))

/-- What the drivers and the devices mean by it: a set of lines that are enabled and one of lines with a
    request, each with the handler of its device. -/
def linesStep (lines : LinesState) : LineOp → Option (LinesState × Option Routine)
  | .enable n => some ({ lines with on := Function.update lines.on n true }, none)
  | .disable n => some ({ lines with on := Function.update lines.on n false }, none)
  | .ask n => some ({ lines with asked := Function.update lines.asked n true }, none)
  | .withdraw n => some ({ lines with asked := Function.update lines.asked n false }, none)
  | .take =>
    match lines.next? with
    | none => some (lines, none)
    | some n =>
      (routineOf n).map fun r => ({ lines with asked := Function.update lines.asked n false }, some r)

/-- The lines enabled when the first shell starts. -/
def bootLines (n : Nat) : Bool := n == pitIrq || n == kbdIrq || n == slaveIrq || n == rtcIrq

/-- The state stands for the lines: the chips are driven for them, and the vectors lead to the handlers. -/
structure StandsFor (sym : Symbols) (s : Interrupts) (lines : LinesState) : Prop where
  driven : Driven lines s.pics
  entries : ∀ n < 16, (enter s.idt none (Pic.Cascade.vectorOf 0x20 0x28 n)).bind (routineAt sym) = routineOf n

theorem boot_standsFor (sym : Symbols) (s : Interrupts) :
    StandsFor sym (bootInterrupts sym s) ⟨bootLines, fun _ => false⟩ where
  driven := by
    have h := (((i8259Init_driven s.pics).enableIrq kbdIrq).enableIrq rtcIrq).enableIrq pitIrq
    have hlines : Function.update (Function.update (Function.update (Function.update (fun _ => false) slaveIrq true)
        kbdIrq true) rtcIrq true) pitIrq true = bootLines := by
      funext n
      simp only [bootLines, Function.update_apply, pitIrq, kbdIrq, rtcIrq, slaveIrq]
      grind
    simp only [hlines] at h
    exact h
  entries _ hn := boot_entries sym s hn

theorem eoiLine_routineOf {r : Routine} (h : routineOf n = some r) : r.eoiLine = some n := by
  unfold routineOf at h
  split_ifs at h with h0 h1 h8
  · cases h
    exact congrArg some h0.symm
  · cases h
    exact congrArg some h1.symm
  · cases h
    exact congrArg some h8.symm

theorem priority_lt (hn : n ∈ Pic.Cascade.priority) : n < 16 ∧ n ≠ slaveIrq := by
  revert n
  decide

/-- An interrupt is the one of the line that is served next. It runs the handler of the line's device, and of
    the chips' state only the request is gone. -/
theorem StandsFor.take (h : StandsFor sym s lines) :
    s.take sym = match lines.next? with
      | none => some (s, none)
      | some n => (routineOf n).map fun r => (s.withdraw n, some r) := by
  have hnext : (Pic.Cascade.priority.find? fun n => s.pics.chips.asked n && s.pics.chips.unmasked n)
      = lines.next? := by
    unfold LinesState.next?
    refine List.find?_congr fun n hn => ?_
    have hn16 := (priority_lt hn).1
    rw [h.driven.asked n hn16, h.driven.unmasked hn16]
  unfold Interrupts.take
  rw [h.driven.idle.take, hnext]
  cases hline : lines.next? with
  | none => rfl
  | some n =>
      have hn := (priority_lt (List.mem_of_find?_eq_some hline)).1
      simp only [Option.map_some, h.entries n hn]
      cases hr : routineOf n with
      | none => rfl
      | some r =>
          simp only [eoiLine_routineOf hr, Option.map_some, Option.getD_some]
          rw [h.driven.sendEoi hn]
          rfl

theorem StandsFor.step (h : StandsFor sym s lines) {op : LineOp} (hop : op.Valid) :
    Option.Rel (fun r q => StandsFor sym r.1 q.1 ∧ r.2 = q.2) (s.step sym op) (linesStep lines op) := by
  cases op with
  | enable n => exact .some ⟨⟨h.driven.enableIrq n, h.entries⟩, rfl⟩
  | disable n => exact .some ⟨⟨h.driven.disableIrq n, h.entries⟩, rfl⟩
  | ask n => exact .some ⟨⟨h.driven.ask hop, h.entries⟩, rfl⟩
  | withdraw n => exact .some ⟨⟨h.driven.withdraw n, h.entries⟩, rfl⟩
  | take =>
      have htake : s.step sym .take = _ := h.take
      rw [htake]
      unfold linesStep
      cases hline : lines.next? with
      | none => exact .some ⟨h, rfl⟩
      | some n =>
          simp only
          cases routineOf n with
          | none => exact .none
          | some r => exact .some ⟨⟨h.driven.withdraw n, h.entries⟩, rfl⟩

/-- From boot on, whatever was in the descriptor table and in the chips before: a run of the drivers, the
    devices and the processor runs the same handlers, and stops at the same interrupt without one, as the two
    sets of lines do; and after it nothing is in service, and the masks and the requests are those of the
    sets. -/
theorem interrupts_refine (sym : Symbols) (s : Interrupts) {ops : List LineOp} (hops : ∀ op ∈ ops, op.Valid) :
    Option.Rel (fun r q => StandsFor sym r.1 q.1 ∧ r.2 = q.2)
      (Runs.trace (Interrupts.step sym) (bootInterrupts sym s) ops)
      (Runs.trace linesStep ⟨bootLines, fun _ => false⟩ ops) :=
  Runs.trace_rel (fun _ _ _ h hop => h.step hop) (boot_standsFor sym s) hops

/-- A routine every 16 bytes. -/
def Routine.number : Routine → Nat
  | .exception i => i.val
  | .syscall => 32
  | .keyboard => 33
  | .rtc => 34
  | .pit => 35

def smallSymbols : Symbols where
  address r := BitVec.ofNat 32 (0x400000 + 16 * r.number)
  apart r r' h := by
    have hlt : ∀ r : Routine, r.number < 36 := by
      intro r
      cases r with
      | exception i => exact Nat.lt_of_lt_of_le i.isLt (by decide)
      | _ => decide
    have hnumber : r.number = r'.number := by
      have hr := hlt r
      have hr' := hlt r'
      have hnat := congrArg BitVec.toNat h
      simp only [BitVec.toNat_ofNat] at hnat
      omega
    cases r <;> cases r' <;> simp_all [Routine.number] <;> omega

/-- The table and the chips as they may be before boot. -/
def smallInterrupts : Interrupts where
  idt _ := ⟨0, 0, 0, false, false, false, false, false, 0, false, 0⟩
  pics := ⟨0, 0, ⟨⟨.icw3, 0, 0, 0, 0, 0, 0x11, 0xFF⟩, ⟨.mask, 0, 0, 0, 0, 0, 0, 0⟩⟩⟩

/-- The keyboard's line is switched off, and its request comes through when it is on again; then the clock and
    the timer ask at once, and the clock once more behind the closed way to the second chip. -/
def smallLines : List LineOp :=
  [.ask 1, .take, .disable 1, .ask 1, .ask 1, .take, .enable 1, .take, .take, .ask 8, .ask 0, .take, .take,
    .disable 2, .ask 8, .take, .enable 2, .take]

theorem interrupts_refine_small :
    (Runs.trace (Interrupts.step smallSymbols) (bootInterrupts smallSymbols smallInterrupts) smallLines).map
        (fun r => r.2.filterMap id)
      = some [.keyboard, .keyboard, .pit, .rtc, .rtc] := by
  have hvalid : ∀ op ∈ smallLines, op.Valid := by simp [smallLines, LineOp.Valid, slaveIrq]
  have hrel := interrupts_refine smallSymbols smallInterrupts hvalid
  have hlines : (Runs.trace linesStep ⟨bootLines, fun _ => false⟩ smallLines).map (fun r => r.2.filterMap id)
      = some [.keyboard, .keyboard, .pit, .rtc, .rtc] := rfl
  rw [← hlines]
  generalize Runs.trace (Interrupts.step smallSymbols) _ _ = r, Runs.trace linesStep _ _ = q at hrel ⊢
  cases hrel with
  | none => rfl
  | some h => exact congrArg some (congrArg (List.filterMap id) h.2)

/-! ## The lines of boot -/

/-- The state of the lines of boot, with no request that waits for one of them. -/
structure AtRest (sym : Symbols) (s : Interrupts) (lines : LinesState) : Prop where
  standsFor : StandsFor sym s lines
  on : lines.on = bootLines
  rest : ∀ n, bootLines n = true → lines.asked n = false

theorem routineOf_isNone (hcascade : n ≠ slaveIrq) : (routineOf n).isNone = !bootLines n := by
  unfold routineOf bootLines
  split_ifs with h0 h1 h8
  · simp [h0]
  · simp [h1]
  · simp [h8]
  · simp [h0, h1, h8, hcascade]

theorem find?_priority (hn : n < 16) (hcascade : n ≠ slaveIrq) :
    (Pic.Cascade.priority.find? fun m => decide (m = n) && true) = some n := by
  revert hcascade
  revert n
  decide

/-- A request of a device at rest: it is the one that is served if the line is on, and none is if not. -/
theorem AtRest.next? (h : AtRest sym s lines) (hn : n < 16) (hcascade : n ≠ slaveIrq) :
    LinesState.next? { lines with asked := Function.update lines.asked n true }
      = if bootLines n then some n else none := by
  have hthrough : ∀ m ∈ Pic.Cascade.priority,
      (Function.update lines.asked n true m && (lines.on m && (decide (m < 8) || lines.on 2)))
        = (decide (m = n) && bootLines n) := by
    intro m hm
    rw [h.on, Function.update_apply, show bootLines 2 = true from rfl, Bool.or_true, Bool.and_true]
    by_cases hmn : m = n
    · simp [hmn]
    · cases hboot : bootLines m with
      | true => simp [hmn, h.rest m hboot]
      | false => simp [hmn]
  unfold LinesState.next?
  rw [List.find?_congr hthrough]
  cases hboot : bootLines n with
  | true => exact find?_priority hn hcascade
  | false => simp

/-- With the lines of boot a device that has a handler is served at once, and the request of another one is
    kept. -/
theorem AtRest.raise (h : AtRest sym s lines) (hn : n < 16) (hcascade : n ≠ slaveIrq) :
    s.raise sym n = some (if (routineOf n).isNone then s.ask n else s, routineOf n) := by
  have hasked : StandsFor sym (s.ask n) { lines with asked := Function.update lines.asked n true } :=
    ⟨h.standsFor.driven.ask hcascade, h.standsFor.entries⟩
  unfold Interrupts.raise
  rw [hasked.take, h.next? hn hcascade, routineOf_isNone hcascade]
  cases hboot : bootLines n with
  | true =>
      have hoff : s.pics.chips.asked n = false := (h.standsFor.driven.asked n hn).trans (h.rest n hboot)
      obtain ⟨r, hr⟩ : ∃ r, routineOf n = some r := Option.isSome_iff_exists.1 (by
        rw [← Option.not_isNone, routineOf_isNone hcascade, hboot]
        rfl)
      have hback : (s.ask n).withdraw n = s := by
        unfold Interrupts.ask Interrupts.withdraw
        simp only [Pic.Cascade.withdraw_ask s.pics.chips hoff]
      simp [hr, hback]
  | false =>
      have hnone : routineOf n = none := by
        rw [← Option.isNone_iff_eq_none, routineOf_isNone hcascade, hboot]
        rfl
      simp [hnone]

theorem AtRest.ask (h : AtRest sym s lines) (hn : n < 16) (hcascade : n ≠ slaveIrq)
    (hnone : (routineOf n).isNone = true) :
    AtRest sym (s.ask n) { lines with asked := Function.update lines.asked n true } := by
  refine ⟨⟨h.standsFor.driven.ask hcascade, h.standsFor.entries⟩, h.on, fun m hm => ?_⟩
  have hne : m ≠ n := by
    rintro rfl
    rw [routineOf_isNone hcascade, hm] at hnone
    cases hnone
  exact (Function.update_of_ne hne _ _).trans (h.rest m hm)

theorem AtRest.trace {requests : List Nat} (h : AtRest sym s lines)
    (hlines : ∀ n ∈ requests, n < 16 ∧ n ≠ slaveIrq) :
    Runs.trace (Interrupts.raise sym) s requests
      = some ((requests.filter fun n => (routineOf n).isNone).foldl Interrupts.ask s, requests.map routineOf) := by
  induction requests generalizing s lines with
  | nil => rfl
  | cons n requests ih =>
      obtain ⟨hn, hcascade⟩ := hlines n List.mem_cons_self
      have hrest := fun m hm => hlines m (List.mem_cons_of_mem n hm)
      unfold Runs.trace
      rw [h.raise hn hcascade, Option.bind_some, List.filter_cons]
      cases hnone : (routineOf n).isNone with
      | true =>
          simp only [if_true, ih (h.ask hn hcascade hnone) hrest]
          rfl
      | false =>
          simp only [Bool.false_eq_true, if_false, ih h hrest]
          rfl

/-- From boot on, whatever was in the descriptor table and in the chips before, and whichever devices ask for
    service how often and in what order: every interrupt of the timer, the keyboard and the clock runs its own
    handler, nothing else runs, no interrupt is without a handler, and no line stays in service. The chips
    keep the requests of the other lines. -/
theorem interrupts_handled (sym : Symbols) (s : Interrupts) {requests : List Nat}
    (hlines : ∀ n ∈ requests, n < 16 ∧ n ≠ slaveIrq) :
    Runs.trace (Interrupts.raise sym) (bootInterrupts sym s) requests
      = some ((requests.filter fun n => (routineOf n).isNone).foldl Interrupts.ask (bootInterrupts sym s),
          requests.map routineOf) := by
  have hrest : AtRest sym (bootInterrupts sym s) ⟨bootLines, fun _ => false⟩ :=
    ⟨boot_standsFor sym s, rfl, fun _ _ => rfl⟩
  exact hrest.trace hlines

/-- Two keys, the clock, the printer port and the timer. -/
theorem interrupts_handled_small :
    Runs.trace (Interrupts.raise smallSymbols) (bootInterrupts smallSymbols smallInterrupts) [1, 1, 8, 7, 0]
      = some ((bootInterrupts smallSymbols smallInterrupts).ask 7,
          [some .keyboard, some .keyboard, some .rtc, none, some .pit]) :=
  interrupts_handled smallSymbols smallInterrupts (by decide)

end BaseOs
