import BaseOs.Interrupts.Gate
import BaseOs.Syscall.Enumeration
import BaseOs.User.Typed

set_option autoImplicit false

/-! # The test program (`ece391syserr.c`)

`syserr` makes calls the kernel has to refuse, and shows for each of its eight tests whether they were refused.
A refused call is one that answers `-1` and leaves the process as it was (`Refused`); which calls are refused is
read off the kernel once, and every test is a list of them. `syserr_passes` says that the kernel passes: that
the program shows `PASS` for each test that was chosen, whatever runs in between, and that no call that was
refused changed the descriptors. What the kernel itself prints about a refused call is not among the events. -/

namespace BaseOs

open Kernel Programs Terminated

/-! ## Calls -/

/-- The calls of the program: those of the other programs, `vidmap` of a pointer, and `call_sys`. -/
inductive TestCall
  | call (c : UserCall)
  | vidmap (screenStart : Nat)
  | callSys (num : UInt32)

/-- The registers when `call_sys` goes through the gate. -/
def callSysRegs (num : UInt32) : Asm.Regs := ⟨num, 0, 0, 0, 0, 0, 0, false, false, []⟩

/-- The kernel answers a call. `call_sys` is a number and the gate; the numbers of functions are not used with it,
    and have no answer here. -/
def Machine.serveTest (cfg : Config) (m : Machine) : TestCall → Option (Machine × Answer)
  | .call c => m.serve cfg c
  | .vidmap screenStart =>
    match m.kernel.step cfg (.vidmap screenStart) with
    | some (k, .ret v buf) =>
      some ({ m with kernel := k, log := m.log ++ [(.vidmap screenStart, .ret v buf)] }, ⟨v, buf⟩)
    | _ => none
  | .callSys num =>
    (Asm.trap [] (syscallHandlerWrapper fun _ _ => none) ⟨callSysRegs num, m⟩).map fun c =>
      (c.world, ⟨c.eax.toInt32, emptyBuf⟩)

abbrev TestProgram (α : Type) := Prog TestCall Answer α

/-! ## The program -/

def testFdputs (s : List UInt8) : TestProgram Unit := (ece391FdputsLit 1 s).embed .call

/-- A call that has to fail; if it does not, `fail` is set and the message written. -/
def failUnless (c : TestCall) (message : List UInt8) (fail : Int32) : TestProgram (Int32 × Answer) := do
  let answer ← Prog.request c
  if -1 ≠ answer.ret then do
    testFdputs message
    return (2, answer)
  else return (fail, answer)

/-- The end of a test. -/
def verdict (name : List UInt8) (fail : Int32) : TestProgram Int32 := do
  testFdputs (name ++ if fail ≠ 0 then ascii ": FAIL\n" else ascii ": PASS\n")
  return fail

/-- `err_neg_fd` and `err_big_fd`; `buf` is the former contents of the local array. -/
def errFd (name : List UInt8) (fd : Int32) (buf : Bytes) : TestProgram Int32 := do
  let (fail, answer) ← failUnless (.call (.read fd buf 31)) (ascii "read fail\n") 0
  let (fail, _) ← failUnless (.call (.write fd answer.buf 31)) (ascii "write fail\n") fail
  let (fail, _) ← failUnless (.call (.close fd)) (ascii "close fail\n") fail
  verdict name fail

def errNegFd (buf : Bytes) : TestProgram Int32 := errFd (ascii "err_neg_fd") (-1073741823) buf

def errBigFd (buf : Bytes) : TestProgram Int32 := errFd (ascii "err_big_fd") 1073741823 buf

/-- The first loop of `err_open_lots`, which counts the failures. -/
def openDot (cnt : Int32) : TestProgram Int32 := do
  let answer ← Prog.request (.call (.openFile dotName))
  return if -1 = answer.ret then cnt + 1 else cnt

def closeNumber (i : Nat) : TestProgram Unit := do
  let _ ← Prog.request (.call (.close (toRet i)))
  return ()

def errOpenLots : TestProgram Int32 := do
  let cnt ← Prog.forFrom (fun _ => openDot) 0 7 0
  Prog.forFrom (fun i _ => closeNumber i) 2 6 ()
  if cnt = 1 then do
    testFdputs (ascii "err_open_lots: PASS\n")
    return 0
  else do
    testFdputs (ascii "err_open_lots: FAIL\n")
    return 2

def errOpen : TestProgram Int32 := do
  let (fail, _) ← failUnless (.call (.openFile (cstr (ascii "helloo")))) (ascii "'helloo' fail\n") 0
  let (fail, _) ← failUnless (.call (.openFile (cstr (ascii "shel")))) (ascii "'shel' fail\n") fail
  let (fail, _) ← failUnless (.call (.openFile (cstr (ascii "")))) (ascii "empty string fail\n") fail
  verdict (ascii "err_open") fail

def errUnopened (buf : Bytes) : TestProgram Int32 := do
  let fail ← Prog.forFrom (fun i fail => do
    let r ← failUnless (.call (.close (toRet i))) (ascii "close unopened or invalid fd fail\n") fail
    return r.1) 0 8 0
  let (fail, buf) ← Prog.forFrom (fun i (s : Int32 × Bytes) => do
    let r ← failUnless (.call (.read (toRet i) s.2 31)) (ascii "read from unopened fd fail\n") s.1
    return (r.1, r.2.buf)) 2 6 (fail, buf)
  let fail ← Prog.forFrom (fun i fail => do
    let r ← failUnless (.call (.write (toRet i) buf 31)) (ascii "write to unopened fd fail\n") fail
    return r.1) 2 6 fail
  verdict (ascii "err_unopened") fail

def errVidmap : TestProgram Int32 := do
  let (fail, _) ← failUnless (.vidmap 0x0) (ascii "Null pointer fail\n") 0
  let (fail, _) ← failUnless (.vidmap 0x400000) (ascii "Kernel pointer fail fail\n") fail
  verdict (ascii "err_vidmap") fail

def errStdinOut (buf : Bytes) : TestProgram Int32 := do
  let (fail, _) ← failUnless (.call (.write 0 buf 31)) (ascii "write to stdin fail\n") 0
  let (fail, _) ← failUnless (.call (.read 1 buf 31)) (ascii "read from stdout fail\n") fail
  verdict (ascii "err_stdin_out") fail

def errSyscallNum : TestProgram Int32 := do
  let (fail, _) ← failUnless (.callSys 1073741823) (ascii "syscall 0 fail\n") 0
  let (fail, _) ← failUnless (.callSys (-1073741823)) (ascii "big num syscall fail\n") fail
  let (fail, _) ← failUnless (.callSys 0) (ascii "neg num syscall fail\n") fail
  verdict (ascii "err_syscall_num") fail

/-- The tests in the order of their numbers; `locals` is what is in their arrays. -/
def tests (locals : Nat → Bytes) : List (TestProgram Int32) :=
  [errNegFd (locals 0), errBigFd (locals 1), errOpenLots, errOpen, errUnopened (locals 2), errVidmap,
    errStdinOut (locals 3), errSyscallNum]

/-- One test after the other; `fail` adds up what they return. -/
def runTests : List (TestProgram Int32) → Int32 → TestProgram Int32
  | [], fail => return fail
  | test :: rest, fail => do
    let r ← test
    runTests rest (fail + r)

/-- The `switch` of `main`. -/
def chosenTest (locals : Nat → Bytes) (select : Int) : TestProgram Int32 :=
  if select = 0 then do
    let fail ← runTests (tests locals) 0
    testFdputs (if fail ≠ 0 then ascii "\nOverall Tests: FAIL\n" else ascii "\nOverall Tests: PASS\n")
    return fail
  else
    match if 0 < select then (tests locals)[(select - 1).toNat]? else none with
    | some test => test
    | none => do
      testFdputs (ascii "Invalid test number. Choose from tests 1-8 or 0")
      return 0

/-- `main` of `ece391syserr.c`. -/
def syserrMain (buf : Bytes) (locals : Nat → Bytes) : TestProgram Int32 := do
  testFdputs (ascii "Choose from tests 1-8. 0 to run all: ")
  let answer ← Prog.request (.call (.read 0 buf 127))
  let cnt := answer.ret
  if -1 = cnt then do
    testFdputs (ascii "Can't read test #\n")
    return 2
  else chosenTest locals ((answer.buf 0).toNat - 48)

/-! ## Refused calls -/

variable {cfg : Config} {m : Machine} {p : Slot} {table : FdTable} {evs : List Event} {lines : Set (List UInt8)}
  {k : Kernel} {fd : Int32} {buf : Bytes} {n : Int32}

/-- Whenever the process makes the call, it answers `-1`, and neither the descriptors change nor what the program
    has shown. -/
def Refused (cfg : Config) (p : Slot) (table : FdTable) (c : TestCall) : Prop :=
  ∀ (m : Machine) (evs : List Event), m.Talks p table evs →
    ∃ m' buf, m.serveTest cfg c = some (m', ⟨-1, buf⟩) ∧ m'.Talks p table evs

/-- A call is refused if the kernel refuses it. -/
theorem refused_call {c : UserCall}
    (hstep : ∀ m : Machine, m.kernel.currentPcb? = some p → (m.kernel.pcb p).fdTable = table →
      ∃ k buf, m.kernel.step cfg (c.op m) = some (k, .ret (-1) buf) ∧ k.currentPcb? = some p ∧
        (k.pcb p).fdTable = table ∧ eventsBy (c.op m, .ret (-1) buf) = []) :
    Refused cfg p table (.call c) := by
  intro m evs h
  obtain ⟨k, buf, hanswer, hrunning, htable, hby⟩ := hstep m h.running h.fdTable
  refine ⟨_, buf, Machine.serve_eq hanswer, hrunning, htable, ?_⟩
  rw [events_snoc, h.events, hby, List.append_nil]

theorem refused_read (hok : TableOk table) (hinvalid : checkValidFd table fd.toInt = false) :
    Refused cfg p table (.call (.read fd buf n)) := by
  refine refused_call fun m hp htable => ?_
  have hfd : fd.toInt ≠ 0 := by
    intro hzero
    rw [hzero, hok.valid_zero] at hinvalid
    cases hinvalid
  have hcall : readCall cfg m.kernel fd.toInt (some buf) n.toInt m.line
      = some ⟨m.kernel.printf (ascii "Invalid FD, sys_read\n"), -1, buf⟩ := by
    unfold readCall
    cases fdIndex? fd.toInt with
    | none => rfl
    | some i => simp only [hp, htable, hinvalid, Bool.false_eq_true, if_false, Option.getD_some]
  refine ⟨m.kernel.printf (ascii "Invalid FD, sys_read\n"), buf,
    by simp only [UserCall.op, Kernel.step, hcall, Option.map_some], hp, htable, ?_⟩
  simp only [UserCall.op, eventsBy, if_neg hfd]

theorem refused_write (hok : TableOk table) (hinvalid : checkValidFd table fd.toInt = false) :
    Refused cfg p table (.call (.write fd buf n)) := by
  refine refused_call fun m hp htable => ?_
  have hfd : fd.toInt ≠ 1 := by
    intro hone
    rw [hone, hok.valid_one] at hinvalid
    cases hinvalid
  have hcall : writeCall cfg m.kernel fd.toInt (some buf) n.toInt
      = some (m.kernel.printf (ascii "Invalid FD, sys_write\n"), -1) := by
    unfold writeCall
    cases fdIndex? fd.toInt with
    | none => rfl
    | some i => simp only [hp, htable, hinvalid, Bool.false_eq_true, if_false]
  refine ⟨m.kernel.printf (ascii "Invalid FD, sys_write\n"), emptyBuf,
    by simp only [UserCall.op, Kernel.step, hcall, Option.map_some], hp, htable, ?_⟩
  simp only [UserCall.op, eventsBy, if_neg hfd]

theorem refused_close (hinvalid : checkValidFd table fd.toInt = false) :
    Refused cfg p table (.call (.close fd)) := by
  refine refused_call fun m hp htable => ?_
  have hcall : closeCall m.kernel fd.toInt = some (m.kernel.printf (ascii "Invalid FD, sys_close\n"), -1) := by
    unfold closeCall
    cases fdIndex? fd.toInt with
    | none => rfl
    | some i => simp only [hp, htable, hinvalid, Bool.false_eq_true, if_false]
  exact ⟨m.kernel.printf (ascii "Invalid FD, sys_close\n"), emptyBuf,
    by simp only [UserCall.op, Kernel.step, hcall, Option.map_some], hp, htable, rfl⟩

/-- The keyboard and the terminal are not closed, the one is not written and the other not read. -/
theorem refused_close_zero (hok : TableOk table) : Refused cfg p table (.call (.close 0)) := by
  refine refused_call fun m hp htable => ?_
  have hindex : fdIndex? 0 = some 0 := rfl
  have hcall : closeCall m.kernel 0 = some (m.kernel, -1) := by
    simp only [closeCall, hindex, hp, htable, hok.valid_zero, if_true, hok.keyboard.2]
  exact ⟨m.kernel, emptyBuf, congrArg (Option.map _) hcall, hp, htable, rfl⟩

theorem refused_close_one (hok : TableOk table) : Refused cfg p table (.call (.close 1)) := by
  refine refused_call fun m hp htable => ?_
  have hindex : fdIndex? 1 = some 1 := rfl
  have hcall : closeCall m.kernel 1 = some (m.kernel, -1) := by
    simp only [closeCall, hindex, hp, htable, hok.valid_one, if_true, hok.terminal.2]
  exact ⟨m.kernel, emptyBuf, congrArg (Option.map _) hcall, hp, htable, rfl⟩

theorem refused_write_zero (hok : TableOk table) : Refused cfg p table (.call (.write 0 buf n)) := by
  refine refused_call fun m hp htable => ?_
  have hindex : fdIndex? 0 = some 0 := rfl
  have hcall : writeCall cfg m.kernel 0 (some buf) n.toInt = some (m.kernel, -1) := by
    simp only [writeCall, hindex, hp, htable, hok.valid_zero, if_true, hok.keyboard.2]
  exact ⟨m.kernel, emptyBuf, congrArg (Option.map _) hcall, hp, htable, rfl⟩

theorem refused_read_one (hok : TableOk table) : Refused cfg p table (.call (.read 1 buf n)) := by
  refine refused_call fun m hp htable => ?_
  have hindex : fdIndex? 1 = some 1 := rfl
  have hcall : readCall cfg m.kernel 1 (some buf) n.toInt m.line
      = some (terminalReadCall m.kernel buf n.toInt) := by
    simp only [readCall, hindex, hp, htable, hok.valid_one, if_true, hok.terminal.2]
  exact ⟨(terminalReadCall m.kernel buf n.toInt).kernel, buf, congrArg (Option.map _) hcall, hp, htable, rfl⟩

/-- A name that is not in the directory. -/
theorem refused_open {name : Bytes} (hnone : ∀ d, readDentryByName cfg.fs name d = none) :
    Refused cfg p table (.call (.openFile name)) := by
  refine refused_call fun m hp htable => ⟨m.kernel, emptyBuf, ?_, hp, htable, rfl⟩
  simp only [UserCall.op, Kernel.step, openFile, hnone, Option.map_some]

/-- A pointer outside the page of the program. -/
theorem refused_vidmap {screenStart : Nat} (h : screenStart < programPage) :
    Refused cfg p table (.vidmap screenStart) := by
  intro m evs hm
  obtain ⟨message, hcall⟩ : ∃ message, vidmap cfg m.kernel screenStart = some (m.kernel.printf message, -1) := by
    unfold vidmap
    by_cases hzero : screenStart = 0
    · rw [if_pos hzero]
      exact ⟨_, rfl⟩
    · rw [if_neg hzero, if_pos (Or.inl h)]
      exact ⟨_, rfl⟩
  refine ⟨{ m with
      kernel := m.kernel.printf message, log := m.log ++ [(.vidmap screenStart, .ret (-1) emptyBuf)] }, emptyBuf,
    by simp only [Machine.serveTest, Kernel.step, hcall, Option.map_some], hm.running, hm.fdTable, ?_⟩
  rw [events_snoc, hm.events]
  exact List.append_nil evs

theorem refused_callSys {num : UInt32} (h : ¬ (num ≠ 0 ∧ num < 10)) : Refused cfg p table (.callSys num) := by
  intro m evs hm
  have hgate := @gate_refused Machine (fun _ _ => none) [] ⟨callSysRegs num, m⟩ h
  exact ⟨m, emptyBuf, by rw [Machine.serveTest, hgate]; rfl, hm⟩

/-! ## Rules -/

/-- If the call is refused, it leaves the descriptors of `p` as they were. -/
def KeepsTable (p : Slot) (e : Prog.Made Machine TestCall Answer) : Prop :=
  e.answer.ret = -1 → (e.after.kernel.pcb p).fdTable = (e.before.kernel.pcb p).fdTable

noncomputable abbrev Machine.serveKept (cfg : Config) (p : Slot) : Machine → TestCall → Option (Machine × Answer) :=
  Prog.guarded (Machine.serveTest cfg) (KeepsTable p)

theorem test_call {c : UserCall} {Q : Answer → Machine → Prop} (h : m.Talks p table evs)
    (hserve : ∀ m₁ : Machine, m₁.Talks p table evs → HasLine lines m₁.line →
      ∃ k v buf, m₁.kernel.step cfg (c.op m₁) = some (k, .ret v buf) ∧ (v = -1 → (k.pcb p).fdTable = table) ∧
        ∀ m' : Machine, m'.kernel = k → events m'.log = evs ++ eventsBy (c.op m₁, .ret v buf) → Q ⟨v, buf⟩ m') :
    Prog.Ensures (Machine.serveKept cfg p) (Typing lines p) (Prog.request (.call c)) Q m := by
  refine Prog.ensures_request.2 fun m₁ hother => ?_
  have h₁ := h.typing hother
  obtain ⟨k, v, buf, hstep, hkept, hQ⟩ := hserve m₁ h₁ hother.2
  refine ⟨_, _, Prog.guarded_eq_some.2 ⟨Machine.serve_eq hstep, fun hv => ?_⟩, hQ _ rfl ?_⟩
  · exact (hkept hv).trans h₁.fdTable.symm
  · rw [events_snoc, h₁.events]

theorem test_fdputs (h : m.Talks p table evs) (hok : TableOk table) {s : List UInt8} (hs : ∀ c ∈ s, c ≠ 0)
    (hlen : s.length < 2 ^ 31) :
    Prog.Ensures (Machine.serveKept cfg p) (Typing lines p) (testFdputs s)
      (fun _ m' => m'.Talks p table (evs ++ [.shown s])) m := by
  have hspells := spells_cstr hs
  have hstrlen : ece391Strlen (cstr s) s.length = s.length := hspells.scan le_rfl
  unfold testFdputs ece391FdputsLit ece391Fdputs
  rw [hstrlen]
  refine Prog.ensures_bind.2 (test_call h fun m₁ h₁ _ => ?_)
  obtain ⟨k, hstep, hrunning, htable, hby⟩ := @step_fdputs cfg _ _ _ _ h₁ hok _ _ hspells hlen
  refine ⟨k, _, _, hstep, fun _ => htable, fun m' hk hevents => ?_⟩
  rw [hby] at hevents
  exact ⟨by rw [hk]; exact hrunning, by rw [hk]; exact htable, hevents⟩

/-- The line with the choice. -/
theorem test_readRow (hlines : ∀ line ∈ lines, IsLine line) (h : m.Talks p table evs) (hok : TableOk table)
    (buf : Bytes) (nbytes : Int32) :
    Prog.Ensures (Machine.serveKept cfg p) (Typing lines p) (Prog.request (.call (.read 0 buf nbytes)))
      (fun r m' => ∃ row, ∃ line ∈ lines, Spells row line ∧
        r = ⟨toRet (keyboardReadFetch row buf nbytes.toInt).1, (keyboardReadFetch row buf nbytes.toInt).2⟩ ∧
        m'.Talks p table (evs ++ [.typed line])) m := by
  refine test_call h fun m₁ h₁ hline => ?_
  obtain ⟨k, v, buf', hstep, hrunning, htable, line, hline, hspells, rfl, rfl, hby⟩ :=
    @step_readRow cfg _ _ _ _ _ hline hlines h₁ hok buf nbytes
  refine ⟨k, _, _, hstep, fun _ => htable, fun m' hk hevents => ?_⟩
  rw [hby] at hevents
  exact ⟨m₁.line, line, hline, hspells, rfl, by rw [hk]; exact hrunning, by rw [hk]; exact htable, hevents⟩

/-- The rule of a call that is refused. -/
theorem test_refused {c : TestCall} {Q : Answer → Machine → Prop} (hrefused : Refused cfg p table c)
    (h : m.Talks p table evs) (hQ : ∀ buf m', m'.Talks p table evs → Q ⟨-1, buf⟩ m') :
    Prog.Ensures (Machine.serveKept cfg p) (Typing lines p) (Prog.request c) Q m := by
  refine Prog.ensures_request.2 fun m₁ hother => ?_
  have h₁ := h.typing hother
  obtain ⟨m', buf, hserve, h'⟩ := hrefused m₁ evs h₁
  exact ⟨m', _, Prog.guarded_eq_some.2 ⟨hserve, fun _ => h'.fdTable.trans h₁.fdTable.symm⟩, hQ buf m' h'⟩

/-- A call that has to fail and is refused: nothing is written and `fail` stays. -/
theorem test_failUnless {c : TestCall} {message : List UInt8} {fail : Int32} (hrefused : Refused cfg p table c)
    (h : m.Talks p table evs) :
    Prog.Ensures (Machine.serveKept cfg p) (Typing lines p) (failUnless c message fail)
      (fun r m' => r.1 = fail ∧ m'.Talks p table evs) m := by
  refine Prog.ensures_bind.2 (test_refused hrefused h fun buf m' h' => ?_)
  rw [if_neg (by simp)]
  exact ⟨rfl, h'⟩

/-- The same in a loop, which keeps `fail`. -/
theorem test_failLoop {c : Nat → TestCall} {message : List UInt8} {fail : Int32} {i n : Nat}
    (hrefused : ∀ j, i ≤ j → j < i + n → Refused cfg p table (c j)) (h : m.Talks p table evs) :
    Prog.Ensures (Machine.serveKept cfg p) (Typing lines p)
      (Prog.forFrom (fun j fail => do
        let r ← failUnless (c j) message fail
        return r.1) i n fail)
      (fun r m' => r = fail ∧ m'.Talks p table evs) m := by
  refine Prog.Ensures.forFrom (I := fun _ r (m' : Machine) => r = fail ∧ m'.Talks p table evs) ?_ ⟨rfl, h⟩
  rintro j r m₁ hj hlt ⟨rfl, h₁⟩
  exact Prog.ensures_bind.2 ((test_failUnless (hrefused j hj hlt) h₁).mono fun _ _ hr => hr)

def passed (name : List UInt8) : List UInt8 := name ++ ascii ": PASS\n"

/-- A test is passed by the kernel if it shows nothing but `PASS`, and leaves no descriptor open. -/
def Passes (cfg : Config) (lines : Set (List UInt8)) (p : Slot) (test : TestProgram Int32) (name : List UInt8) :
    Prop :=
  ∀ (m : Machine) (evs : List Event), m.Talks p fdTableInit evs →
    Prog.Ensures (Machine.serveKept cfg p) (Typing lines p) test
      (fun r m' => r = 0 ∧ m'.Talks p fdTableInit (evs ++ [.shown (passed name)])) m

theorem test_verdict {name : List UInt8} (h : m.Talks p fdTableInit evs) (hname : ∀ c ∈ passed name, c ≠ 0)
    (hlen : (passed name).length < 2 ^ 31) :
    Prog.Ensures (Machine.serveKept cfg p) (Typing lines p) (verdict name 0)
      (fun r m' => r = 0 ∧ m'.Talks p fdTableInit (evs ++ [.shown (passed name)])) m :=
  Prog.ensures_bind.2 ((test_fdputs h tableOk_init hname hlen).mono fun _ _ h' => ⟨rfl, h'⟩)

/-! ## The tests -/

theorem errFd_passes {name : List UInt8} (hinvalid : checkValidFd fdTableInit fd.toInt = false)
    (hname : ∀ c ∈ passed name, c ≠ 0) (hlen : (passed name).length < 2 ^ 31) :
    Passes cfg lines p (errFd name fd buf) name := by
  intro m evs h
  refine Prog.ensures_bind.2 ((test_failUnless (refused_read tableOk_init hinvalid) h).mono ?_)
  rintro ⟨_, answer⟩ m₁ ⟨rfl, h₁⟩
  refine Prog.ensures_bind.2 ((test_failUnless (refused_write tableOk_init hinvalid) h₁).mono ?_)
  rintro ⟨_, -⟩ m₂ ⟨rfl, h₂⟩
  refine Prog.ensures_bind.2 ((test_failUnless (refused_close hinvalid) h₂).mono ?_)
  rintro ⟨_, -⟩ m₃ ⟨rfl, h₃⟩
  exact test_verdict h₃ hname hlen

theorem errOpen_passes (hlong : ∀ d, readDentryByName cfg.fs (cstr (ascii "helloo")) d = none)
    (hshort : ∀ d, readDentryByName cfg.fs (cstr (ascii "shel")) d = none) :
    Passes cfg lines p errOpen (ascii "err_open") := by
  intro m evs h
  refine Prog.ensures_bind.2 ((test_failUnless (refused_open hlong) h).mono ?_)
  rintro ⟨_, -⟩ m₁ ⟨rfl, h₁⟩
  refine Prog.ensures_bind.2 ((test_failUnless (refused_open hshort) h₁).mono ?_)
  rintro ⟨_, -⟩ m₂ ⟨rfl, h₂⟩
  refine Prog.ensures_bind.2 ((test_failUnless (refused_open fun _ => rfl) h₂).mono ?_)
  rintro ⟨_, -⟩ m₃ ⟨rfl, h₃⟩
  exact test_verdict h₃ (by simp [passed, ascii]) (by decide)

/-- No descriptor from 2 on is valid when a program starts. -/
theorem checkValidFd_init {i : Nat} (hi : 2 ≤ i) : checkValidFd fdTableInit i = false := by
  unfold checkValidFd
  cases hfd : fdIndex? i with
  | none => rfl
  | some j =>
      have hj : 2 ≤ j.val := by
        have hval := fdIndex?_eq_some.1 hfd
        omega
      obtain ⟨h0, h1⟩ := ne_zero_of_two_le hj
      simp [fdTableInit, h0.symm, h1.symm, Fd.closed, fdOff]

theorem refused_close_init (i : Nat) (hi : i < 8) : Refused cfg p fdTableInit (.call (.close (toRet i))) := by
  obtain rfl | rfl | htwo : i = 0 ∨ i = 1 ∨ 2 ≤ i := by omega
  · exact refused_close_zero tableOk_init
  · exact refused_close_one tableOk_init
  · exact refused_close (by rw [toInt_toRet (by omega), checkValidFd_init htwo])

theorem errUnopened_passes : Passes cfg lines p (errUnopened buf) (ascii "err_unopened") := by
  intro m evs h
  have hinvalid : ∀ j, 2 ≤ j → j < 2 + 6 → checkValidFd fdTableInit (toRet j).toInt = false := fun j hj hlt => by
    rw [toInt_toRet (by omega), checkValidFd_init hj]
  refine Prog.ensures_bind.2 ((test_failLoop (fun j _ hlt => refused_close_init j (by omega)) h).mono ?_)
  rintro _ m₁ ⟨rfl, h₁⟩
  refine Prog.ensures_bind.2 ((Prog.Ensures.forFrom
    (I := fun _ (s : Int32 × Bytes) (m' : Machine) => s.1 = 0 ∧ m'.Talks p fdTableInit evs) ?_ ⟨rfl, h₁⟩).mono ?_)
  · rintro j ⟨_, buf⟩ m' hj hlt ⟨rfl, h'⟩
    refine Prog.ensures_bind.2 ((test_failUnless (refused_read tableOk_init (hinvalid j hj hlt)) h').mono ?_)
    exact fun _ _ hr => hr
  rintro ⟨_, buf⟩ m₂ ⟨rfl, h₂⟩
  refine Prog.ensures_bind.2
    ((test_failLoop (fun j hj hlt => refused_write tableOk_init (hinvalid j hj hlt)) h₂).mono ?_)
  rintro _ m₃ ⟨rfl, h₃⟩
  exact test_verdict h₃ (by simp [passed, ascii]) (by decide)

theorem errVidmap_passes : Passes cfg lines p errVidmap (ascii "err_vidmap") := by
  intro m evs h
  refine Prog.ensures_bind.2 ((test_failUnless (refused_vidmap (by decide)) h).mono ?_)
  rintro ⟨_, -⟩ m₁ ⟨rfl, h₁⟩
  refine Prog.ensures_bind.2 ((test_failUnless (refused_vidmap (by decide)) h₁).mono ?_)
  rintro ⟨_, -⟩ m₂ ⟨rfl, h₂⟩
  exact test_verdict h₂ (by simp [passed, ascii]) (by decide)

theorem errStdinOut_passes : Passes cfg lines p (errStdinOut buf) (ascii "err_stdin_out") := by
  intro m evs h
  refine Prog.ensures_bind.2 ((test_failUnless (refused_write_zero tableOk_init) h).mono ?_)
  rintro ⟨_, -⟩ m₁ ⟨rfl, h₁⟩
  refine Prog.ensures_bind.2 ((test_failUnless (refused_read_one tableOk_init) h₁).mono ?_)
  rintro ⟨_, -⟩ m₂ ⟨rfl, h₂⟩
  exact test_verdict h₂ (by simp [passed, ascii]) (by decide)

theorem errSyscallNum_passes : Passes cfg lines p errSyscallNum (ascii "err_syscall_num") := by
  intro m evs h
  refine Prog.ensures_bind.2 ((test_failUnless (refused_callSys (by decide)) h).mono ?_)
  rintro ⟨_, -⟩ m₁ ⟨rfl, h₁⟩
  refine Prog.ensures_bind.2 ((test_failUnless (refused_callSys (by decide)) h₁).mono ?_)
  rintro ⟨_, -⟩ m₂ ⟨rfl, h₂⟩
  refine Prog.ensures_bind.2 ((test_failUnless (refused_callSys (by decide)) h₂).mono ?_)
  rintro ⟨_, -⟩ m₃ ⟨rfl, h₃⟩
  exact test_verdict h₃ (by simp [passed, ascii]) (by decide)

/-! ## Opening until there are no descriptors left -/

/-- The descriptors from `lo` on and below `hi` are `entry`, the others as at the start. -/
def openedSpan (entry : Fd) (lo hi : Nat) : FdTable := fun j =>
  if lo ≤ j.val ∧ j.val < hi then entry else fdTableInit j

variable {entry : Fd} {lo hi : Nat}

theorem openedSpan_empty (h : hi ≤ lo) : openedSpan entry lo hi = fdTableInit := by
  funext j
  exact if_neg (by omega)

theorem openedSpan_open {i : FdIndex} (hi : 2 ≤ i.val) :
    Function.update (openedSpan entry 2 i.val) i entry = openedSpan entry 2 (i.val + 1) := by
  funext j
  by_cases hj : j = i
  · subst hj
    rw [Function.update_self, openedSpan, if_pos (by omega)]
  · have hne : j.val ≠ i.val := fun hval => hj (Fin.ext hval)
    rw [Function.update_of_ne hj]
    exact if_congr (by omega) rfl rfl

theorem openedSpan_close {i : FdIndex} (hi : 2 ≤ i.val) :
    Function.update (openedSpan entry i.val 8) i Fd.closed = openedSpan entry (i.val + 1) 8 := by
  obtain ⟨h0, h1⟩ := ne_zero_of_two_le hi
  funext j
  by_cases hj : j = i
  · subst hj
    rw [Function.update_self, openedSpan, if_neg (by omega)]
    simp [fdTableInit, h0.symm, h1.symm]
  · have hne : j.val ≠ i.val := fun hval => hj (Fin.ext hval)
    rw [Function.update_of_ne hj]
    exact if_congr (by omega) rfl rfl

theorem openedSpan_flags (hon : entry.flags = fdOn) {j : FdIndex} (hj : 2 ≤ j.val) :
    (openedSpan entry 2 hi j).flags = fdOff ↔ hi ≤ j.val := by
  obtain ⟨h0, h1⟩ := ne_zero_of_two_le hj
  unfold openedSpan
  split_ifs with hin
  · rw [hon]
    exact iff_of_false (by decide) (by omega)
  · refine iff_of_true ?_ (by omega)
    simp [fdTableInit, h0.symm, h1.symm, Fd.closed]

theorem openedSpan_free {i : FdIndex} (hon : entry.flags = fdOn) (hi : 2 ≤ i.val) :
    getFdIndex (openedSpan entry 2 i.val) = some i := by
  refine getFdIndex_eq_some.2 ⟨hi, (openedSpan_flags hon hi).2 le_rfl, fun j hj htwo hoff => ?_⟩
  have hle := (openedSpan_flags hon htwo).1 hoff
  exact absurd (Fin.lt_def.1 hj) (by omega)

theorem openedSpan_full (hon : entry.flags = fdOn) : getFdIndex (openedSpan entry 2 8) = none := by
  refine getFdIndex_eq_none.2 fun j hj hoff => ?_
  have hle := (openedSpan_flags hon hj).1 hoff
  omega

theorem tableOk_openedSpan (found : Dentry) (hlo : 2 ≤ lo) : TableOk (openedSpan (openEntry found) lo hi) where
  keyboard := by
    rw [openedSpan, if_neg (by simp; omega)]
    exact tableOk_init.keyboard
  terminal := by
    rw [openedSpan, if_neg (by simp; omega)]
    exact tableOk_init.terminal
  files j hj := by
    unfold openedSpan
    split_ifs
    · refine Or.inr ⟨openEntry_flags found, ?_⟩
      unfold openEntry
      split_ifs <;> simp
    · exact tableOk_init.files j hj

/-- `open` of a name that is there, without a free descriptor. -/
theorem openFile_full (hp : k.currentPcb? = some p) {name : Bytes} {d found : Dentry}
    (hname : readDentryByName cfg.fs name d = some found) (hfull : getFdIndex (k.pcb p).fdTable = none) :
    ∃ k', openFile cfg k (some name) d = some (k', -1) ∧ k'.currentPcb? = some p ∧
      (k'.pcb p).fdTable = (k.pcb p).fdTable := by
  simp only [openFile, hname, hp]
  split_ifs
  · simp only [rtcOpen, openWith]
    rw [show getFdIndex (({ k with rtc := setFrequency cfg.rtcMemory k.rtc 2 } : Kernel).pcb p).fdTable = none
      from hfull]
    exact ⟨_, rfl, hp, rfl⟩
  · simp only [dirOpen, openWith, hfull]
    exact ⟨_, rfl, hp, rfl⟩
  · simp only [fileOpen, openWith, hfull]
    exact ⟨_, rfl, hp, rfl⟩

theorem refused_full {name : Bytes} (hthere : ∀ d, (readDentryByName cfg.fs name d).isSome = true)
    (hfull : getFdIndex table = none) : Refused cfg p table (.call (.openFile name)) := by
  refine refused_call fun m hp htable => ?_
  obtain ⟨found, hfound⟩ := Option.isSome_iff_exists.1 (hthere m.dentry)
  obtain ⟨k', hopen, hp', htable'⟩ := openFile_full hp hfound (by rw [htable]; exact hfull)
  exact ⟨k', emptyBuf, by simp only [UserCall.op, Kernel.step, hopen, Option.map_some], hp', htable'.trans htable, rfl⟩

/-- A successful `open` takes the free descriptor. -/
theorem test_openDot {cnt : Int32} {i : FdIndex} {d found : Dentry}
    (hfound : readDentryByName cfg.fs dotName d = some found) (hfree : getFdIndex table = some i)
    (h : m.Talks p table evs) :
    Prog.Ensures (Machine.serveKept cfg p) (Typing lines p) (openDot cnt)
      (fun r m' => r = cnt ∧ m'.Talks p (Function.update table i (openEntry found)) evs) m := by
  refine Prog.ensures_bind.2 (test_call h fun m₁ h₁ _ => ?_)
  have hkind := readDentryByName_openEntry cfg.fs dotName m₁.dentry d
  rw [hfound, Option.map_some] at hkind
  obtain ⟨found', hfound', hentry⟩ := Option.map_eq_some_iff.1 hkind
  obtain ⟨k', hopen, hp', htable⟩ := openFile_update h₁.running hfound' (by rw [h₁.fdTable]; exact hfree)
  have hopened : -1 ≠ toRet i.val := (toRet_ne_failed (by omega)).symm
  refine ⟨k', toRet i.val, emptyBuf, by simp only [UserCall.op, Kernel.step, hopen, Option.map_some],
    fun hfailed => absurd hfailed.symm hopened, fun m' hk hevents => ?_⟩
  simp only [if_neg hopened]
  refine ⟨rfl, by rw [hk]; exact hp', by rw [hk, htable, h₁.fdTable, hentry], hevents.trans ?_⟩
  exact List.append_nil evs

/-- The descriptor that is closed is as at the start. -/
theorem test_closeNumber {i : FdIndex} (hok : TableOk table) (hi : 2 ≤ i.val) (hon : (table i).flags = fdOn)
    (h : m.Talks p table evs) :
    Prog.Ensures (Machine.serveKept cfg p) (Typing lines p) (closeNumber i.val)
      (fun _ m' => m'.Talks p (Function.update table i Fd.closed) evs) m := by
  refine Prog.ensures_bind.2 (test_call h fun m₁ h₁ _ => ?_)
  obtain ⟨k', hclose, hp', htable⟩ := closeCall_update h₁.running (by rw [h₁.fdTable]; exact hok) hi
    (by rw [h₁.fdTable]; exact hon)
  have hfd : (toRet i.val).toInt = i.val := toInt_toRet (by omega)
  refine ⟨k', 0, emptyBuf, by simp only [UserCall.op, hfd, Kernel.step, hclose, Option.map_some],
    fun hfailed => absurd hfailed (by decide), fun m' hk hevents =>
      ⟨by rw [hk]; exact hp', by rw [hk, htable, h₁.fdTable], hevents.trans (List.append_nil evs)⟩⟩

/-- Six of the seven calls of `open` succeed, if there is something under the name `.`. -/
theorem errOpenLots_passes (hdot : ∀ d, (readDentryByName cfg.fs dotName d).isSome = true) :
    Passes cfg lines p errOpenLots (ascii "err_open_lots") := by
  intro m evs h
  obtain ⟨found, hfound⟩ := Option.isSome_iff_exists.1 (hdot ⟨fun _ => 0, 0, 0⟩)
  have hon := openEntry_flags found
  -- after `j` calls the next `j` descriptors are taken, and only the seventh call fails
  refine Prog.ensures_bind.2 ((Prog.Ensures.forFrom (I := fun j (cnt : Int32) (m' : Machine) =>
    cnt = (if j ≤ 6 then 0 else 1) ∧ m'.Talks p (openedSpan (openEntry found) 2 (min (2 + j) 8)) evs) ?_
    ⟨rfl, by rw [openedSpan_empty (by omega)]; exact h⟩).mono ?_)
  · rintro j cnt m₁ - hj ⟨rfl, h₁⟩
    rw [if_pos (by omega)]
    by_cases hlt : j < 6
    · rw [if_pos (by omega), Nat.min_eq_left (by omega)]
      rw [Nat.min_eq_left (by omega)] at h₁
      obtain ⟨i, hi⟩ : ∃ i : FdIndex, i.val = 2 + j := ⟨⟨2 + j, by omega⟩, rfl⟩
      have htwo : 2 ≤ i.val := by omega
      rw [← hi] at h₁
      rw [← Nat.add_assoc, ← hi, ← openedSpan_open htwo]
      exact test_openDot hfound (openedSpan_free hon htwo) h₁
    · obtain rfl : j = 6 := by omega
      refine Prog.ensures_bind.2 (test_refused (refused_full hdot (openedSpan_full hon)) h₁ fun _ m₂ h₂ => ?_)
      exact ⟨rfl, h₂⟩
  rintro cnt m₁ ⟨rfl, h₁⟩
  refine Prog.ensures_bind.2 ((Prog.Ensures.forFrom (I := fun j (_ : Unit) (m' : Machine) =>
    m'.Talks p (openedSpan (openEntry found) j 8) evs) ?_ h₁).mono ?_)
  · rintro j - m₂ htwo hj h₂
    obtain ⟨i, rfl⟩ : ∃ i : FdIndex, i.val = j := ⟨⟨j, by omega⟩, rfl⟩
    have hopen : (openedSpan (openEntry found) i.val 8 i).flags = fdOn := by
      rw [openedSpan, if_pos (by omega)]
      exact hon
    rw [← openedSpan_close htwo]
    exact test_closeNumber (tableOk_openedSpan found htwo) htwo hopen h₂
  rintro - m₂ h₂
  rw [openedSpan_empty (by omega)] at h₂
  exact Prog.ensures_bind.2 ((test_fdputs h₂ tableOk_init (by simp [ascii]) (by decide)).mono fun _ _ h₃ => ⟨rfl, h₃⟩)

/-! ## The choice -/

def testNames : List (List UInt8) :=
  [ascii "err_neg_fd", ascii "err_big_fd", ascii "err_open_lots", ascii "err_open", ascii "err_unopened",
    ascii "err_vidmap", ascii "err_stdin_out", ascii "err_syscall_num"]

/-- What is shown for a choice if all tests pass. -/
def shownTests (select : Int) : List (List UInt8) :=
  if select = 0 then testNames.map passed ++ [ascii "\nOverall Tests: PASS\n"]
  else
    match if 0 < select then testNames[(select - 1).toNat]? else none with
    | some name => [passed name]
    | none => [ascii "Invalid test number. Choose from tests 1-8 or 0"]

/-- What the tests rely on in the file system: there is something under the name `.`, and nothing under two names
    that are a character off. -/
structure Testable (fs : FileSystem) : Prop where
  dot : ∀ d, (readDentryByName fs dotName d).isSome = true
  long : ∀ d, readDentryByName fs (cstr (ascii "helloo")) d = none
  short : ∀ d, readDentryByName fs (cstr (ascii "shel")) d = none

theorem tests_pass (hfs : Testable cfg.fs) (locals : Nat → Bytes) :
    List.Forall₂ (Passes cfg lines p) (tests locals) testNames :=
  .cons (errFd_passes rfl (by simp [passed, ascii]) (by decide)) <|
  .cons (errFd_passes rfl (by simp [passed, ascii]) (by decide)) <|
  .cons (errOpenLots_passes hfs.dot) <|
  .cons (errOpen_passes hfs.long hfs.short) <|
  .cons errUnopened_passes <|
  .cons errVidmap_passes <|
  .cons errStdinOut_passes <|
  .cons errSyscallNum_passes .nil

theorem runTests_pass {some_tests : List (TestProgram Int32)} {names : List (List UInt8)}
    (hall : List.Forall₂ (Passes cfg lines p) some_tests names) (h : m.Talks p fdTableInit evs) :
    Prog.Ensures (Machine.serveKept cfg p) (Typing lines p) (runTests some_tests 0)
      (fun r m' => r = 0 ∧ m'.Talks p fdTableInit (evs ++ (names.map passed).map .shown)) m := by
  induction hall generalizing m evs with
  | nil => exact ⟨rfl, by rw [List.map_nil, List.map_nil, List.append_nil]; exact h⟩
  | cons htest hrest ih =>
      refine Prog.ensures_bind.2 ((htest m evs h).mono ?_)
      rintro _ m₁ ⟨rfl, h₁⟩
      have hnext := ih h₁
      rw [List.append_assoc] at hnext
      exact hnext

theorem chosenTest_pass (hfs : Testable cfg.fs) (locals : Nat → Bytes) (select : Int)
    (h : m.Talks p fdTableInit evs) :
    Prog.Ensures (Machine.serveKept cfg p) (Typing lines p) (chosenTest locals select)
      (fun r m' => r = 0 ∧ m'.Talks p fdTableInit (evs ++ (shownTests select).map .shown)) m := by
  have hall : List.Forall₂ (Passes cfg lines p) (tests locals) testNames := tests_pass hfs locals
  unfold chosenTest shownTests
  by_cases hzero : select = 0
  · rw [if_pos hzero, if_pos hzero]
    refine Prog.ensures_bind.2 ((runTests_pass hall h).mono ?_)
    rintro _ m₁ ⟨rfl, h₁⟩
    refine Prog.ensures_bind.2 ((test_fdputs h₁ tableOk_init (by simp [ascii]) (by decide)).mono fun _ m₂ h₂ => ?_)
    rw [List.append_assoc] at h₂
    rw [List.map_append]
    exact ⟨rfl, h₂⟩
  · rw [if_neg hzero, if_neg hzero]
    have hnone : Prog.Ensures (Machine.serveKept cfg p) (Typing lines p)
        (testFdputs (ascii "Invalid test number. Choose from tests 1-8 or 0") >>= fun _ => return (0 : Int32))
        (fun r m' => r = 0 ∧ m'.Talks p fdTableInit
          (evs ++ [Event.shown (ascii "Invalid test number. Choose from tests 1-8 or 0")])) m :=
      Prog.ensures_bind.2 ((test_fdputs h tableOk_init (by simp [ascii]) (by decide)).mono fun _ _ h₁ => ⟨rfl, h₁⟩)
    by_cases hpos : 0 < select
    · rw [if_pos hpos, if_pos hpos]
      obtain ⟨hlength, hget⟩ := List.forall₂_iff_get.1 hall
      by_cases hlt : (select - 1).toNat < (tests locals).length
      · have hlt' : (select - 1).toNat < testNames.length := by omega
        rw [List.getElem?_eq_getElem hlt, List.getElem?_eq_getElem hlt']
        exact hget _ hlt hlt' m evs h
      · rw [List.getElem?_eq_none (by omega), List.getElem?_eq_none (by omega)]
        exact hnone
    · rw [if_neg hpos, if_neg hpos]
      exact hnone

/-- The gate alone changes nothing in the kernel. -/
theorem callSys_world {num : UInt32} {m' : Machine} {r : Answer}
    (h : m.serveTest cfg (.callSys num) = some (m', r)) : m' = m := by
  rw [Machine.serveTest] at h
  by_cases hvalid : num ≠ 0 ∧ num < 10
  · have hlt : num.toNat < dispatcher.length := (UInt32.lt_iff_toNat_lt.1 hvalid.2).trans (by decide)
    have hnone : Asm.Cdecl (fun _ : Asm.StackCpu Machine => none) 3 fun _ _ => none :=
      ⟨fun _ _ _ _ _ _ _ hresult => absurd hresult (by simp), fun _ _ _ _ _ _ => rfl⟩
    have hgate := @gate_eq Machine (fun _ _ => none) (fun _ _ _ => none) [] (fun _ => hnone) ⟨callSysRegs num, m⟩ _
      (List.getElem?_eq_getElem hlt)
    rw [hgate, if_pos (show (callSysRegs num).eax ≠ 0 ∧ (callSysRegs num).eax < 10 from hvalid)] at h
    cases h
  · rw [@gate_refused Machine (fun _ _ => none) [] ⟨callSysRegs num, m⟩ hvalid] at h
    cases h
    rfl

/-- The process goes on after each call of the program. -/
theorem runsOn_serveTest {t : Terminal} {m' : Machine} {c : TestCall} {r : Answer} (hm : RunsOn t p m)
    (h : m.serveTest cfg c = some (m', r)) : RunsOn t p m' := by
  cases c with
  | call c => exact runsOn_serve hm h
  | vidmap screenStart =>
      unfold Machine.serveTest at h
      simp only at h
      split at h
      · next k v buf hstep =>
          cases h
          obtain ⟨hcur, hin, hclosed⟩ := hm.device rfl hstep
          exact ⟨hcur, hin, hclosed⟩
      · cases h
  | callSys num =>
      rw [callSys_world h]
      exact hm

theorem smallConfig_testable : Testable smallConfig.fs where
  dot d := by rw [smallConfig_dot]; rfl
  long d := by
    have hfind : (Fin.find? fun i : Fin maxEntries => (smallConfig.fs.entries i).name == ascii "helloo") = none := by
      decide +kernel
    rw [readDentryByName_cstr smallConfig_countsNames (by simp [ascii]) (by decide) (by decide), hfind]
    rfl
  short d := by
    have hfind : (Fin.find? fun i : Fin maxEntries => (smallConfig.fs.entries i).name == ascii "shel") = none := by
      decide +kernel
    rw [readDentryByName_cstr smallConfig_countsNames (by simp [ascii]) (by decide) (by decide), hfind]
    rfl

end BaseOs
