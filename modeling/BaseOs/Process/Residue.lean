import BaseOs.Process.Arguments

set_option autoImplicit false

/-! # What `getargs` hands out behind the arguments

`execute` writes the arguments and their terminator over the 128 bytes of the slot's field, `getargs` copies
all of them and trims blanks at the end only. So the bytes an earlier process of the slot has left behind the
terminator reach the new one, unless they are blanks to the end. `sameArguments_iff` compares two histories
that end in the same command: the new process sees the same in both, exactly if they have left the same behind
the terminator. -/

namespace BaseOs

open Kernel Terminated

variable {cfg : Config} {k k' : Kernel} {machine : Kernel} {comm : Bytes} {loc : Locals} {s : List UInt8}
  {t : Terminal} {i p : Slot}

/-! ## The bytes `getargs` returns -/

/-- What the backward loop of `getargs` clears. -/
def isBlank (c : UInt8) : Bool := c == 32 || c == 0

/-- The field of a PCB as a program gets it: all its bytes, but for the blanks at the end. -/
def handedOut (args : Bytes) : List UInt8 := (firstBytes args termBuffSize).rdropWhile isBlank

/-- What there is behind the first `n` bytes of the field and their terminator, but for blanks at the
    end. -/
def residue (args : Bytes) (n : Nat) : List UInt8 :=
  ((firstBytes args termBuffSize).drop (n + 1)).rdropWhile isBlank

/-- The backward loop drops the blanks at the end and fills up with zeros. -/
theorem trimBlanks_bytes (buf : Bytes) (n : Nat) :
    ∃ m, firstBytes (trimBlanks buf n) n
      = (firstBytes buf n).rdropWhile isBlank ++ List.replicate m 0 := by
  induction n generalizing buf with
  | zero => exact ⟨0, rfl⟩
  | succ n ih =>
      rw [trimBlanks, firstBytes_succ buf]
      split_ifs with hblank
      · obtain ⟨m, hm⟩ := ih (Function.update buf n 0)
        obtain ⟨-, -, -, habove, -⟩ := trimBlanks_spec (Function.update buf n 0) n
        have hlast : trimBlanks (Function.update buf n 0) n n = 0 := by
          rw [habove n le_rfl, Function.update_self]
        have hbefore : firstBytes (Function.update buf n 0) n = firstBytes buf n := by
          rw [firstBytes_eq_iff]
          exact ⟨rfl, fun j hj => Function.update_of_ne hj.ne _ _⟩
        have hdrop : isBlank (buf n) = true := by
          simpa [isBlank] using hblank
        refine ⟨m + 1, ?_⟩
        rw [firstBytes_succ, hm, hlast, hbefore, List.rdropWhile_concat_pos _ _ _ hdrop,
          List.append_assoc, ← List.replicate_succ']
      · have hkeep : ¬ isBlank (buf n) = true := by
          simpa [isBlank] using hblank
        refine ⟨0, ?_⟩
        rw [List.rdropWhile_concat_neg _ _ _ hkeep, firstBytes_succ, List.replicate_zero,
          List.append_nil]

/-- With room for more than the field, the copy is the field and zeros. -/
theorem copyArgs_bytes (args buf : Bytes) {n : Nat} (hn : termBuffSize ≤ n) :
    firstBytes (copyArgs args buf n) n
      = firstBytes args termBuffSize ++ List.replicate (n - termBuffSize) 0 := by
  apply List.ext_getElem
  · simp [length_firstBytes, hn]
  · intro j h1 h2
    rw [length_firstBytes] at h1
    simp only [firstBytes, copyArgs, List.getElem_map, List.getElem_range, List.getElem_append,
      List.length_map, List.length_range, List.getElem_replicate, Nat.min_eq_right hn, h1, if_true]
    rfl

/-- `getargs` with room for more than the field: the bytes it stores, and when it fails. -/
theorem getargs_bytes (hp : k.currentPcb? = some p) (buf : Bytes) {nbytes : Int} (hn : 129 ≤ nbytes)
    (hmax : nbytes < 2 ^ 31) :
    ∃ r m, getargs k (some buf) nbytes = some r ∧
      firstBytes r.buf nbytes.toNat = handedOut (k.pcb p).args ++ List.replicate m 0 ∧
      r.ret = if r.buf 0 = 0 then -1 else 0 := by
  have hsize : termBuffSize = 128 := rfl
  obtain ⟨m, hm⟩ := trimBlanks_bytes (copyArgs (k.pcb p).args buf nbytes.toNat) nbytes.toNat
  rw [copyArgs_bytes _ _ (by omega), rdropWhile_append_of_all fun c hc => by
    rw [List.eq_of_mem_replicate hc]; rfl] at hm
  unfold getargs
  simp only [toU32_toNat (show 0 ≤ nbytes by omega) hmax, hp]
  rw [if_neg (by omega), if_neg (by omega)]
  split_ifs with hzero
  · exact ⟨_, m, rfl, hm, by rw [if_pos hzero]⟩
  · exact ⟨_, m, rfl, hm, by rw [if_neg hzero]⟩

/-! ## Two states compared -/

/-- The running programs of two states get the same from `getargs`, for every length with room for any
    arguments, whatever their buffers held before. -/
def SameArguments (k k' : Kernel) : Prop :=
  ∀ (buf buf' : Bytes) (nbytes : Int), 129 ≤ nbytes → nbytes < 2 ^ 31 →
    ∃ r r', getargs k (some buf) nbytes = some r ∧ getargs k' (some buf') nbytes = some r' ∧
      r.ret = r'.ret ∧ ∀ j < nbytes.toNat, r.buf j = r'.buf j

theorem sameArguments_of_pcb {p' : Slot} (hp : k.currentPcb? = some p) (hp' : k'.currentPcb? = some p') :
    SameArguments k k' ↔ handedOut (k.pcb p).args = handedOut (k'.pcb p').args := by
  -- the two calls return the same bytes, exactly if the fields are handed out alike
  have hbytes : ∀ {r r' : SysResult} {n m m' : Nat},
      firstBytes r.buf n = handedOut (k.pcb p).args ++ List.replicate m 0 →
      firstBytes r'.buf n = handedOut (k'.pcb p').args ++ List.replicate m' 0 →
      ((∀ j < n, r.buf j = r'.buf j) ↔ handedOut (k.pcb p).args = handedOut (k'.pcb p').args) := by
    intro r r' n m m' hr hr'
    have hsame : (∀ j < n, r.buf j = r'.buf j) ↔ firstBytes r.buf n = firstBytes r'.buf n := by
      rw [firstBytes_eq_iff, and_iff_right rfl]
    have hlen := (length_firstBytes r.buf n).trans (length_firstBytes r'.buf n).symm
    rw [hsame]
    rw [hr, hr'] at hlen ⊢
    exact rdropWhile_fill_iff rfl hlen
  constructor
  · intro hsame
    obtain ⟨r, r', hr, hr', -, heq⟩ := hsame emptyBuf emptyBuf 129 le_rfl (by decide)
    obtain ⟨q, m, hq, hm, -⟩ := getargs_bytes hp emptyBuf (le_refl 129) (by decide)
    obtain ⟨q', m', hq', hm', -⟩ := getargs_bytes hp' emptyBuf (le_refl 129) (by decide)
    obtain rfl : q = r := Option.some.inj (hq.symm.trans hr)
    obtain rfl : q' = r' := Option.some.inj (hq'.symm.trans hr')
    exact (hbytes hm hm').1 heq
  · intro heq buf buf' nbytes hn hmax
    obtain ⟨r, m, hr, hm, hret⟩ := getargs_bytes hp buf hn hmax
    obtain ⟨r', m', hr', hm', hret'⟩ := getargs_bytes hp' buf' hn hmax
    have hsame := (hbytes hm hm').2 heq
    refine ⟨r, r', hr, hr', ?_, hsame⟩
    rw [hret, hret', hsame 0 (by omega)]

/-- What `strcpy` leaves of the bytes it copies over. -/
theorem strcpy_bytes {src : Bytes} {bound : Nat} (h : Spells src s) (hs : s.length < bound)
    (dest : Bytes) :
    firstBytes (strcpy dest src bound) bound = s ++ 0 :: (firstBytes dest bound).drop (s.length + 1) := by
  apply List.ext_getElem
  · simp only [length_firstBytes, List.length_append, List.length_cons, List.length_drop]
    omega
  · intro j h1 h2
    rw [length_firstBytes] at h1
    simp only [firstBytes, List.getElem_map, List.getElem_range, strcpy, h.scan hs.le]
    rcases Nat.lt_trichotomy j s.length with hlt | rfl | hgt
    · rw [if_pos hlt, List.getElem_append_left hlt, h.getElem hlt]
    · rw [if_neg (Nat.lt_irrefl _), if_pos rfl, List.getElem_append_right le_rfl]
      simp
    · rw [if_neg (by omega), if_neg (by omega), List.getElem_append_right hgt.le, List.getElem_cons,
        dif_neg (by omega)]
      simp only [List.getElem_drop, List.getElem_map, List.getElem_range]
      congr 1
      omega

/-- Fields the same arguments are copied to are handed out alike, exactly if they have the same residue. -/
theorem handedOut_strcpy_iff {args args' row row' : Bytes} (h : Spells row s) (h' : Spells row' s)
    (hs : s.length < termBuffSize) :
    handedOut (strcpy args row termBuffSize) = handedOut (strcpy args' row' termBuffSize) ↔
      residue args s.length = residue args' s.length := by
  unfold handedOut residue
  rw [strcpy_bytes h hs, strcpy_bytes h' hs]
  exact rdropWhile_append_cons_iff rfl

/-! ## Histories -/

/-- A history of a process: the kernel boots, runs to a state in which `execute` starts the command in slot
    `i` on terminal `t`, and goes on, with the programs above the process come and gone, to a state in which
    the process runs. -/
structure History (cfg : Config) (machine : Kernel) (comm : Bytes) (t : Terminal) (i : Slot) where
  loc0 : Locals
  entryPoint0 : UInt32
  booted : Kernel
  boots : boot cfg machine loc0 = .started booted entryPoint0
  before : List Op
  state : Kernel
  runs : Runs.run (Kernel.next cfg) booted before = some state
  terminal : state.currTerminal = t
  slot : freeSlot state = some i
  loc : Locals
  entryPoint : UInt32
  started : Kernel
  starts : execute cfg state (some comm) loc = .started started entryPoint
  after : List Op
  last : Kernel
  tidy : Runs.AllSteps (nested cfg t) (TidyOn cfg t) (started, 0) after
  goesOn : Runs.run (nested cfg t) (started, 0) after = some (last, 0)
  current : last.currTerminal = t

/-- At the end the process runs, with the arguments it was started with. -/
theorem History.calls (h : History cfg machine comm t i) :
    h.last.currentPcb? = some i ∧ (h.last.pcb i).args = (h.started.pcb i).args := by
  have htidy : Runs.AllSteps (nested cfg h.state.currTerminal) (TidyOn cfg h.state.currTerminal)
      (h.started, 0) h.after := by
    rw [h.terminal]
    exact h.tidy
  have hrun : Runs.run (nested cfg h.state.currTerminal) (h.started, 0) h.after
      = some (h.last, 0) := by
    rw [h.terminal]
    exact h.goesOn
  exact args_later h.boots h.runs h.slot h.starts htidy hrun (h.current.trans h.terminal.symm)

theorem History.handedOut_iff (h h' : History cfg machine comm t i) :
    handedOut (h.last.pcb i).args = handedOut (h'.last.pcb i).args ↔
      residue (h.state.pcb i).args (argumentText comm).length
        = residue (h'.state.pcb i).args (argumentText comm).length := by
  obtain ⟨row, hrow, hcopy⟩ := execute_args_eq h.slot h.starts
  obtain ⟨row', hrow', hcopy'⟩ := execute_args_eq h'.slot h'.starts
  rw [h.calls.2, h'.calls.2, hcopy, hcopy']
  exact handedOut_strcpy_iff hrow hrow' (length_argumentText_lt comm)

/-- Two histories on one machine that end in the same command, into the same slot on the same terminal: the
    new process gets the same from `getargs` in both, exactly if the earlier processes of the slot have left
    the same behind the arguments. -/
theorem sameArguments_iff (h h' : History cfg machine comm t i) :
    SameArguments h.last h'.last ↔
      residue (h.state.pcb i).args (argumentText comm).length
        = residue (h'.state.pcb i).args (argumentText comm).length := by
  rw [sameArguments_of_pcb h.calls.1 h'.calls.1]
  exact h.handedOut_iff h'

/-- Two runs of the same operations, except that processes which have ended by the end of them were started
    with other commands. -/
inductive DifferInEnded (cfg : Config) : Kernel → List Op → Kernel → List Op → Prop
  | nil (k k' : Kernel) : DifferInEnded cfg k [] k' []
  | same {k k' k1 k1' : Kernel} {op : Op} {ops ops' : List Op} (step : k.next cfg op = some k1)
      (step' : k'.next cfg op = some k1') (rest : DifferInEnded cfg k1 ops k1' ops') :
      DifferInEnded cfg k (op :: ops) k' (op :: ops')
  | ended {k k' k1 k1' : Kernel} {comm comm' : Bytes} {loc : Locals} {e e' : UInt32} {ops ops' : List Op}
      (starts : execute cfg k (some comm) loc = .started k1 e)
      (starts' : execute cfg k' (some comm') loc = .started k1' e')
      (ends : Runs.run (nested cfg k.currTerminal) (k1, 0) ops = none)
      (ends' : Runs.run (nested cfg k'.currTerminal) (k1', 0) ops' = none)
      (rest : DifferInEnded cfg k1 ops k1' ops') :
      DifferInEnded cfg k (.execute (some comm) loc :: ops) k' (.execute (some comm') loc :: ops')

/-- Two histories that differ only in the commands of processes that have ended before the last one was
    started. -/
structure OnlyEndedDiffer (h h' : History cfg machine comm t i) : Prop where
  loc0 : h.loc0 = h'.loc0
  before : DifferInEnded cfg h.booted h.before h'.booted h'.before
  loc : h.loc = h'.loc
  after : h.after = h'.after

/-! ## On the small machine

A first shell is started with some arguments and ends, and then a second one is started in its slot. -/

/-- A process that ends leaves the argument fields alone. -/
theorem halt_child_args {stack : Terminal → List Slot} {q : Slot} {rest : List Slot} {status : UInt8}
    {out : Out} (hs : Sessions k stack) (htop : stack k.currTerminal = p :: q :: rest)
    (h : (halt cfg k status loc).toStep = some (k', out)) (j : Slot) :
    (k'.pcb j).args = (k.pcb j).args := by
  obtain ⟨p', rest', hp', -, hpcb⟩ := hs.running
  obtain ⟨rfl, -⟩ := List.cons.inj (htop.symm.trans hp')
  have hmem : p ∈ stack k.currTerminal := by rw [htop]; exact List.mem_cons_self
  have hchild : ¬ p.val < 3 := fun hlt => by cases (hs.base_alone htop hlt).2
  rw [halt_eq hpcb (hs.processId hmem), if_neg hchild] at h
  rw [haltReturn_pcb h]
  exact setFdTable_args k p closeAllFd j

/-- A command that begins with the word `shell`. -/
def IsShell (comm : Bytes) : Prop := (∀ i < 5, comm i = shellCommand i) ∧ (comm 5 = 32 ∨ comm 5 = 0)

/-- The first shell leaves its arguments in the field of slot 3, which was zero before. -/
theorem shell_ended {old : Bytes} (hold : IsShell old) :
    ∃ k1 entryPoint k2, execute smallConfig smallBooted (some old) (localsAt 3) = .started k1 entryPoint ∧
      k1.next smallConfig (.halt 0 (localsAt 3)) = some k2 ∧
      nested smallConfig smallBooted.currTerminal (k1, 0) (.halt 0 (localsAt 3)) = none ∧
      freeSlot k2 = some 3 ∧ k2.currTerminal = smallBooted.currTerminal ∧
      ∃ row, Spells row (argumentText old) ∧
        (k2.pcb 3).args = strcpy (fun _ => 0) row termBuffSize := by
  obtain ⟨-, -, hst0⟩ := smallBooted_spec
  have hs0 := (boot_sessions hst0).1
  obtain ⟨k1, entryPoint, hex, hst1⟩ := @execute_shell_word smallConfig smallBooted old (localsAt 3)
    smallConfig_hasShell _ smallBooted_freeSlot hold.1 hold.2
  have hs1 := hs0.push (freeSlot_eq_some.1 smallBooted_freeSlot).1 hst1.entered
  have hterm1 : k1.currTerminal = smallBooted.currTerminal := hst1.currTerminal
  obtain ⟨q, rest, hq, -⟩ := hs0.running
  have htop : Function.update bootSessions smallBooted.currTerminal
      (3 :: bootSessions smallBooted.currTerminal) k1.currTerminal = 3 :: q :: rest := by
    rw [hterm1, Function.update_self, hq]
  obtain ⟨k2, hhalt, hended⟩ := @halt_child smallConfig k1 _ (localsAt 3) _ _ _ hs1 htop 0
  obtain ⟨row, hrow, hargs⟩ := execute_args_eq smallBooted_freeSlot hex
  have hzero : (smallBooted.pcb 3).args = fun _ => 0 := by
    rw [hst0.pcb_of_ne 3 (by decide)]
    rfl
  refine ⟨k1, entryPoint, k2, hex, ?_, ?_, ?_, hended.currTerminal.trans hterm1, row, hrow, ?_⟩
  · simp only [Kernel.next, Kernel.step, hhalt, Option.map_some]
  · simp only [nested, Kernel.step, hhalt, hterm1]
    rfl
  · rw [freeSlot_eq_some, hended.inUse, hst1.inUse]
    simp only [Function.update_apply, smallBooted_inUse]
    decide
  · rw [halt_child_args hs1 htop hhalt, hargs, hzero]

/-- What is left of old arguments behind new ones. -/
theorem residue_strcpy {row : Bytes} (h : Spells row s) (hs : s.length < termBuffSize) (n : Nat) :
    residue (strcpy (fun _ => 0) row termBuffSize) n = (s.drop (n + 1)).rdropWhile isBlank := by
  have hzeros : ∀ c ∈ (0 :: (firstBytes (fun _ => 0) termBuffSize).drop (s.length + 1)).drop
      (n + 1 - s.length), isBlank c = true := by
    intro c hc
    rcases List.mem_cons.1 (List.mem_of_mem_drop hc) with rfl | hc
    · rfl
    · obtain ⟨j, -, rfl⟩ := List.mem_map.1 (List.mem_of_mem_drop hc)
      rfl
  unfold residue
  rw [strcpy_bytes h hs, List.drop_append, rdropWhile_append_of_all hzeros]

/-- A history of the small machine: the first shell with its arguments, its end, the second shell. -/
theorem small_history {old new : Bytes} (hold : IsShell old) (hnew : IsShell new) :
    ∃ h : History smallConfig smallMachine new smallBooted.currTerminal 3,
      h.loc0 = localsAt 0 ∧ h.booted = smallBooted ∧
      h.before = [.execute (some old) (localsAt 3), .halt 0 (localsAt 3)] ∧
      h.loc = localsAt 3 ∧ h.after = [] ∧
      ∀ n, residue (h.state.pcb 3).args n = ((argumentText old).drop (n + 1)).rdropWhile isBlank := by
  obtain ⟨entryPoint0, hboot, -⟩ := smallBooted_spec
  obtain ⟨k1, entryPoint1, k2, hex, hhalt, -, hfree, hterm, row, hrow, hargs⟩ := shell_ended hold
  obtain ⟨k3, entryPoint, hex', hst'⟩ := @execute_shell_word smallConfig k2 new (localsAt 3)
    smallConfig_hasShell _ hfree hnew.1 hnew.2
  refine ⟨{
    loc0 := localsAt 0
    entryPoint0 := entryPoint0
    booted := smallBooted
    boots := hboot
    before := [.execute (some old) (localsAt 3), .halt 0 (localsAt 3)]
    state := k2
    runs := Runs.run_cons_eq_some.2 ⟨k1, next_execute hex,
      Runs.run_cons_eq_some.2 ⟨k2, hhalt, Runs.run_nil k2⟩⟩
    terminal := hterm
    slot := hfree
    loc := localsAt 3
    entryPoint := entryPoint
    started := k3
    starts := hex'
    after := []
    last := k3
    tidy := trivial
    goesOn := Runs.run_nil _
    current := hst'.currTerminal.trans hterm }, rfl, rfl, rfl, rfl, rfl, fun n => ?_⟩
  change residue (k2.pcb 3).args n = _
  rw [hargs]
  exact residue_strcpy hrow (length_argumentText_lt old) n

/-- Two such histories differ only in the arguments of the shell that has ended. -/
theorem small_differ {old old' : Bytes} (hold : IsShell old) (hold' : IsShell old') :
    DifferInEnded smallConfig smallBooted [.execute (some old) (localsAt 3), .halt 0 (localsAt 3)]
      smallBooted [.execute (some old') (localsAt 3), .halt 0 (localsAt 3)] := by
  obtain ⟨k1, e, k2, hex, hhalt, hends, -⟩ := shell_ended hold
  obtain ⟨k1', e', k2', hex', hhalt', hends', -⟩ := shell_ended hold'
  have hnone : ∀ k, nested smallConfig smallBooted.currTerminal (k, 0) (.halt 0 (localsAt 3)) = none →
      Runs.run (nested smallConfig smallBooted.currTerminal) (k, 0) [.halt 0 (localsAt 3)] = none := by
    intro k hk
    rw [Runs.run, hk]
    rfl
  exact .ended hex hex' (hnone k1 hends) (hnone k1' hends') (.same hhalt hhalt' (.nil k2 k2'))

theorem small_histories {old old' new : Bytes} (hold : IsShell old) (hold' : IsShell old')
    (hnew : IsShell new) :
    ∃ h h' : History smallConfig smallMachine new smallBooted.currTerminal 3, OnlyEndedDiffer h h' ∧
      (∀ n, residue (h.state.pcb 3).args n = ((argumentText old).drop (n + 1)).rdropWhile isBlank) ∧
      ∀ n, residue (h'.state.pcb 3).args n = ((argumentText old').drop (n + 1)).rdropWhile isBlank := by
  obtain ⟨h, hloc0, hbooted, hbefore, hloc, hafter, hresidue⟩ := small_history hold hnew
  obtain ⟨h', hloc0', hbooted', hbefore', hloc', hafter', hresidue'⟩ := small_history hold' hnew
  refine ⟨h, h', ⟨hloc0.trans hloc0'.symm, ?_, hloc.trans hloc'.symm, hafter.trans hafter'.symm⟩,
    hresidue, hresidue'⟩
  rw [hbooted, hbefore, hbooted', hbefore']
  exact small_differ hold hold'

def secretShell : Bytes := cstr (ascii "shell secret")

def briefShell : Bytes := cstr (ascii "shell a")

theorem shells : IsShell shellCommand ∧ IsShell secretShell ∧ IsShell briefShell ∧
    IsShell shellWithArgs := by
  refine ⟨⟨fun _ _ => rfl, Or.inr rfl⟩, ⟨?_, Or.inl rfl⟩, ⟨?_, Or.inl rfl⟩, ?_, Or.inl rfl⟩
  all_goals decide

/-- Behind longer arguments than those before, nothing is left. -/
theorem sameArguments_small :
    ∃ h h' : History smallConfig smallMachine shellWithArgs smallBooted.currTerminal 3,
      OnlyEndedDiffer h h' ∧ SameArguments h.last h'.last := by
  obtain ⟨hplain, -, hbrief, hargs⟩ := shells
  obtain ⟨h, h', hdiffer, hresidue, hresidue'⟩ := small_histories hplain hbrief hargs
  refine ⟨h, h', hdiffer, (sameArguments_iff h h').2 ?_⟩
  rw [hresidue, hresidue']
  decide

/-- Behind shorter ones the new shell finds the end of the old secret. -/
theorem not_sameArguments :
    ¬ ∀ (cfg : Config) (machine : Kernel) (comm : Bytes) (t : Terminal) (i : Slot)
      (h h' : History cfg machine comm t i), argumentText comm ≠ [] → OnlyEndedDiffer h h' →
        SameArguments h.last h'.last := by
  intro hall
  obtain ⟨hplain, hsecret, hbrief, -⟩ := shells
  obtain ⟨h, h', hdiffer, hresidue, hresidue'⟩ := small_histories hsecret hplain hbrief
  have hsame := hall _ _ _ _ _ h h' (by decide) hdiffer
  rw [sameArguments_of_pcb h.calls.1 h'.calls.1, h.handedOut_iff h', hresidue, hresidue'] at hsame
  exact absurd hsame (by decide)

end BaseOs
