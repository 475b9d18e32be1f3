import BaseOs.Lib.Frames
import BaseOs.Lib.Runs

set_option autoImplicit false

/-! # The ways into the kernel (`wrapper.S`, `ece391syscall.S`, `ece391sysnum.h`)

A program calls a function of its library, which loads the number and three parameters into registers and
goes through the system call gate; the handler there passes the registers on as parameters to the function
in `dispatcher`, and restores them afterwards. `library_call` says that a call of the library is a call of the
kernel's function of the same name with the same parameters, for whatever the C functions do within their
calling convention; `interrupts_transparent` that a program sees nothing of the interrupts. -/

namespace BaseOs

open Asm

/-! ## System calls -/

/-- The functions a program can ask for. -/
inductive SysCall
  | halt | execute | read | write | openFile | close | getargs | vidmap | setHandler | sigreturn
  deriving DecidableEq

/-- `SYS_HALT` to `SYS_SIGRETURN`. -/
def SysCall.number : SysCall → UInt32
  | .halt => 1
  | .execute => 2
  | .read => 3
  | .write => 4
  | .openFile => 5
  | .close => 6
  | .getargs => 7
  | .vidmap => 8
  | .setHandler => 9
  | .sigreturn => 10

/-- `dispatcher`; the first entry is `def_cmd`. -/
def dispatcher : List (Option SysCall) :=
  [none, some .halt, some .execute, some .read, some .write, some .openFile, some .close, some .getargs,
    some .vidmap, some .setHandler, some .sigreturn]

inductive GateLabel
  | syscallReturnFailure | sysRet
  deriving DecidableEq

variable {κ : Type*}

/-- `sys_ret`: the parameters are removed, then the registers restored. -/
def sysRet : List (StackInstr GateLabel κ) :=
  [.label .sysRet, .pop .ebx, .pop .ecx, .pop .edx, .pop .ebx, .pop .ecx, .pop .edx, .pop .esi, .pop .edi]

/-- The call itself, and `syscall_return_failure`. -/
def syscallDispatch (functions : Option SysCall → CpuRoutine κ) : List (StackInstr GateLabel κ) :=
  .callTable (dispatcher.map functions) .eax :: .jmp .sysRet ::
    .label .syscallReturnFailure :: .movImm 0xFFFFFFFF .eax :: sysRet

/-- `syscall_handler_wrapper`, as far as its `iret`. -/
def syscallHandlerWrapper (functions : Option SysCall → CpuRoutine κ) : CpuRoutine κ :=
  routine <|
    .push .edi :: .push .esi :: .push .edx :: .push .ecx :: .push .ebx ::
    .push .edx :: .push .ecx :: .push .ebx ::
    .cmpImm 10 .eax :: .jae .syscallReturnFailure :: .cmpImm 0 .eax :: .jbe .syscallReturnFailure ::
    syscallDispatch functions

/-- `DO_CALL`; `frame` is what the processor pushes at the `int`. -/
def doCall (number : UInt32) (functions : Option SysCall → CpuRoutine κ) (frame : List UInt32) : CpuRoutine κ :=
  routine (α := GateLabel)
    [.push .ebx, .movImm number .eax, .load 2 .ebx, .load 3 .ecx, .load 4 .edx,
      .int (trap frame (syscallHandlerWrapper functions)), .pop .ebx, .ret]

/-- `keyboard_handler_wrapper`, `rtc_handler_wrapper` and `pit_handler_wrapper`, as far as their `iret`. -/
def handlerWrapper (handler : CpuRoutine κ) : CpuRoutine κ := routine (α := GateLabel) [.pushal, .call handler, .popal]

/-! ## The handler of the system call -/

variable {functions : Option SysCall → CpuRoutine κ} {result : Option SysCall → List UInt32 → κ → Option (UInt32 × κ)}
  {c : StackCpu κ} {frame : List UInt32}

/-- What `sys_ret` leaves: the saved registers, and the stack as it was before they were saved. -/
theorem sysRet_eq {p1 p2 p3 ebx ecx edx esi edi : UInt32} {below : List UInt32}
    (h : c.stack = p1 :: p2 :: p3 :: ebx :: ecx :: edx :: esi :: edi :: below) :
    runForward StackInstr.name stackStep none sysRet c
      = some { c with ebx := ebx, ecx := ecx, edx := edx, esi := esi, edi := edi, stack := below } := by
  obtain ⟨⟨eax, ebx', ecx', edx', esi', edi', ebp, cf, zf, stack⟩, world⟩ := c
  simp only at h
  subst h
  rfl

/-- The state when the number is checked. -/
def saved (c : StackCpu κ) : StackCpu κ :=
  { c with stack := c.ebx :: c.ecx :: c.edx :: c.ebx :: c.ecx :: c.edx :: c.esi :: c.edi :: c.stack }

theorem wrapper_saved (c : StackCpu κ) :
    syscallHandlerWrapper functions c =
      runForward StackInstr.name stackStep none
        (.cmpImm 10 .eax :: .jae .syscallReturnFailure :: .cmpImm 0 .eax :: .jbe .syscallReturnFailure ::
          syscallDispatch functions) (saved c) := rfl

/-- A number outside the range of the table is refused. -/
theorem wrapper_refused (h : ¬ (c.eax ≠ 0 ∧ c.eax < 10)) :
    ∃ cf zf, syscallHandlerWrapper functions c = some { c with eax := 0xFFFFFFFF, cf := cf, zf := zf } := by
  rw [wrapper_saved]
  by_cases hlt : c.eax < 10
  · have hzero : c.eax = 0 := by
      by_contra hne
      exact h ⟨hne, hlt⟩
    rw [cmp_jae_not hlt, cmp_jbe]
    · exact ⟨false, true, rfl⟩
    · exact hzero
  · rw [cmp_jae hlt]
    exact ⟨false, c.eax == 10, rfl⟩

/-- Any other number calls the function the table has for it, with the three registers as parameters. -/
theorem wrapper_calls (hcdecl : ∀ f, Cdecl (functions f) 3 (result f)) {f : Option SysCall}
    (hf : dispatcher[c.eax.toNat]? = some f) (hne : c.eax ≠ 0) (hlt : c.eax < 10) :
    match result f [c.ebx, c.ecx, c.edx] c.world with
    | none => syscallHandlerWrapper functions c = none
    | some (v, k) => ∃ cf zf, syscallHandlerWrapper functions c
        = some { c with eax := v, cf := cf, zf := zf, world := k } := by
  set c₁ : StackCpu κ := { saved c with cf := false, zf := false } with hc₁
  have hchecked : syscallHandlerWrapper functions c
      = runForward StackInstr.name stackStep none (syscallDispatch functions) c₁ := by
    rw [wrapper_saved, cmp_jae_not hlt, cmp_jbe_not]
    exact hne
  rw [hchecked]
  have hstack : c₁.stack = [c.ebx, c.ecx, c.edx] ++ c.ebx :: c.ecx :: c.edx :: c.esi :: c.edi :: c.stack := rfl
  have hcall : stackStep c₁ (.callTable (α := GateLabel) (dispatcher.map functions) .eax)
      = (functions f c₁).map fun c => (c, none) := by
    have heax : c₁.get .eax = c.eax := rfl
    simp only [stackStep, heax, List.getElem?_map, hf, Option.map_some, Option.bind_some]
  cases hresult : result f [c.ebx, c.ecx, c.edx] c.world with
  | none =>
      simp only
      rw [syscallDispatch, runForward, hcall, (hcdecl f).stays c₁ _ _ hstack rfl hresult]
      rfl
  | some r =>
      obtain ⟨v, k⟩ := r
      simp only
      -- what the function leaves of its parameters is popped with the rest
      obtain ⟨c₂, args, hret, hstack₂, hargs, heax, hworld, hebx, hesi, hedi, hebp⟩ :=
        (hcdecl f).returns c₁ _ _ v k hstack rfl hresult
      obtain ⟨p1, p2, p3, rfl⟩ := List.length_eq_three.mp hargs
      have hdispatch : runForward StackInstr.name stackStep none (syscallDispatch functions) c₁
          = runForward StackInstr.name stackStep none sysRet c₂ := by
        rw [syscallDispatch, runForward, hcall, hret]
        rfl
      rw [hdispatch, sysRet_eq hstack₂]
      refine ⟨c₂.cf, c₂.zf, congrArg some ?_⟩
      obtain ⟨⟨eax, ebx, ecx, edx, esi, edi, ebp, cf, zf, stack⟩, world⟩ := c₂
      simp only at heax hworld hebp
      subst heax hworld hebp
      rfl

/-! ## A call of the library -/

/-- A number that is refused does not reach the kernel. -/
theorem gate_refused (c : StackCpu κ) (h : ¬ (c.eax ≠ 0 ∧ c.eax < 10)) :
    trap frame (syscallHandlerWrapper functions) c = some { c with eax := 0xFFFFFFFF } := by
  obtain ⟨cf, zf, hrefused⟩ := @wrapper_refused κ functions { c with stack := frame } h
  rw [trap, hrefused, Option.bind_some, if_pos rfl]

/-- What the gate does with a number. -/
theorem gate_eq (hcdecl : ∀ f, Cdecl (functions f) 3 (result f)) (c : StackCpu κ) {f : Option SysCall}
    (hf : dispatcher[c.eax.toNat]? = some f) :
    trap frame (syscallHandlerWrapper functions) c =
      if c.eax ≠ 0 ∧ c.eax < 10 then
        (result f [c.ebx, c.ecx, c.edx] c.world).map fun r => { c with eax := r.1, world := r.2 }
      else some { c with eax := 0xFFFFFFFF } := by
  split_ifs with hvalid
  · unfold trap
    have hcalls := wrapper_calls (c := { c with stack := frame }) hcdecl hf hvalid.1 hvalid.2
    simp only at hcalls
    cases hresult : result f [c.ebx, c.ecx, c.edx] c.world with
    | none =>
        rw [hresult] at hcalls
        simp only at hcalls
        rw [hcalls]
        rfl
    | some r =>
        rw [hresult] at hcalls
        obtain ⟨cf, zf, hcalls⟩ := hcalls
        rw [hcalls, Option.bind_some, if_pos rfl]
        rfl
  · exact gate_refused c hvalid

/-- The table has a function under its own number, and only the last of them is out of reach. -/
theorem dispatcher_number (name : SysCall) :
    dispatcher[name.number.toNat]? = some (some name) ∧
      ((name.number ≠ 0 ∧ name.number < 10) ↔ name ≠ .sigreturn) := by
  cases name <;> decide

/-- A call of a library function is a call of the kernel's function of that name with the same parameters: the
    result is in `eax`, `ecx` and `edx` hold parameters, and everything else of the program is as it was. -/
theorem library_call (hcdecl : ∀ f, Cdecl (functions f) 3 (result f))
    (hsigreturn : ∀ args k, result (some .sigreturn) args k = some (0xFFFFFFFF, k)) (name : SysCall)
    (frame : List UInt32) {ret a1 a2 a3 : UInt32} {below : List UInt32}
    (hstack : c.stack = ret :: a1 :: a2 :: a3 :: below) :
    doCall name.number functions frame c = (result (some name) [a1, a2, a3] c.world).map fun r =>
      { c with eax := r.1, ecx := a2, edx := a3, stack := a1 :: a2 :: a3 :: below, world := r.2 } := by
  obtain ⟨⟨eax, ebx, ecx, edx, esi, edi, ebp, cf, zf, stack⟩, world⟩ := c
  simp only at hstack
  subst hstack
  set c₁ : StackCpu κ :=
    ⟨⟨name.number, a1, a2, a3, esi, edi, ebp, cf, zf, ebx :: ret :: a1 :: a2 :: a3 :: below⟩, world⟩ with hc₁
  have hloaded : doCall name.number functions frame
      ⟨⟨eax, ebx, ecx, edx, esi, edi, ebp, cf, zf, ret :: a1 :: a2 :: a3 :: below⟩, world⟩
        = runForward (α := GateLabel) StackInstr.name stackStep none
            [.int (trap frame (syscallHandlerWrapper functions)), .pop .ebx, .ret] c₁ := rfl
  obtain ⟨hf, hvalid⟩ := dispatcher_number name
  have hgate := @gate_eq κ functions result frame hcdecl c₁ (some name) hf
  have heax : c₁.eax = name.number := rfl
  rw [hloaded, runForward, stackStep, hgate, heax]
  by_cases hname : name = .sigreturn
  · subst hname
    rw [if_neg (by decide), hsigreturn]
    rfl
  · have hparams : result (some name) [c₁.ebx, c₁.ecx, c₁.edx] c₁.world
        = result (some name) [a1, a2, a3] world := rfl
    rw [if_pos (hvalid.2 hname), hparams]
    cases result (some name) [a1, a2, a3] world <;> rfl

/-- A kernel that writes down what it is asked for, and leaves nothing in its scratch registers. -/
def smallResult (f : Option SysCall) (args : List UInt32) (k : List (Option SysCall × List UInt32)) :
    Option (UInt32 × List (Option SysCall × List UInt32)) :=
  if f = some .sigreturn then some (0xFFFFFFFF, k) else some (UInt32.ofNat k.length, k ++ [(f, args)])

def smallFunction (f : Option SysCall) : CpuRoutine (List (Option SysCall × List UInt32)) := fun c =>
  (smallResult f (c.stack.take 3) c.world).map fun r =>
    { c with eax := r.1, ecx := 0, edx := 0, stack := 0 :: 0 :: 0 :: c.stack.drop 3, world := r.2 }

theorem smallFunction_cdecl (f : Option SysCall) : Cdecl (smallFunction f) 3 (smallResult f) where
  returns c args below v k hstack hargs hresult := by
    have htake : c.stack.take 3 = args := by rw [hstack, List.take_left' hargs]
    refine ⟨{ c with eax := v, ecx := 0, edx := 0, stack := 0 :: 0 :: 0 :: c.stack.drop 3, world := k }, [0, 0, 0],
      by rw [smallFunction, htake, hresult, Option.map_some], ?_, rfl, rfl, rfl, rfl, rfl, rfl, rfl⟩
    simp only [hstack, List.drop_left' hargs, List.cons_append, List.nil_append]
  stays c args below _ _ hresult := by
    unfold smallResult at hresult
    split_ifs at hresult

def smallCpu : StackCpu (List (Option SysCall × List UInt32)) :=
  ⟨⟨1, 2, 3, 4, 5, 6, 7, false, true, [0x8048000, 0, 0x8049000, 10, 11, 12]⟩, []⟩

/-- `ece391_read(0, buf, 10)`. -/
theorem library_call_small : doCall SysCall.read.number smallFunction [13, 14, 15, 16, 17] smallCpu
    = some ⟨⟨0, 2, 0x8049000, 10, 5, 6, 7, false, true, [0, 0x8049000, 10, 11, 12]⟩,
        [(some .read, [0, 0x8049000, 10])]⟩ :=
  library_call smallFunction_cdecl (fun _ _ => rfl) .read [13, 14, 15, 16, 17] rfl

/-! ## Interrupts -/

/-- What can happen while a program runs: an instruction of it, or an interrupt. -/
inductive UserEvent (κ : Type*)
  | instr (f : Regs → Option Regs)
  | interrupt (handler : CpuRoutine κ) (frame : List UInt32)

def userStep (c : StackCpu κ) : UserEvent κ → Option (StackCpu κ)
  | .instr f => (f c.toRegs).map fun regs => { c with toRegs := regs }
  | .interrupt handler frame => trap frame (handlerWrapper handler) c

/-- The instructions alone. -/
def instrOf : UserEvent κ → Option (Regs → Option Regs)
  | .instr f => some f
  | .interrupt .. => none

/-- Interrupts have handlers that are C functions without parameters and come back. -/
def UserEvent.Handled : UserEvent κ → Prop
  | .instr _ => True
  | .interrupt handler _ => ∃ result, Cdecl handler 0 result ∧ ∀ k, (result [] k).isSome = true

theorem handlerWrapper_eq {handler : CpuRoutine κ} {result : List UInt32 → κ → Option (UInt32 × κ)}
    (hcdecl : Cdecl handler 0 result) (frame : List UInt32) {v : UInt32} {k : κ}
    (hresult : result [] c.world = some (v, k)) :
    trap frame (handlerWrapper handler) c = some { c with world := k } := by
  set c₁ : StackCpu κ := { c with
    stack := c.edi :: c.esi :: c.ebp :: Regs.esp { c with stack := frame } :: c.ebx :: c.edx :: c.ecx :: c.eax ::
      frame } with hc₁
  obtain ⟨c₂, args, hret, hstack, hargs, -, hworld, -⟩ := hcdecl.returns c₁ [] _ v k rfl rfl hresult
  obtain rfl := List.length_eq_zero_iff.1 hargs
  have hcalled : handlerWrapper handler { c with stack := frame }
      = runForward (α := GateLabel) StackInstr.name stackStep none [.popal] c₂ := by
    have hpushed : handlerWrapper handler { c with stack := frame }
        = runForward (α := GateLabel) StackInstr.name stackStep none [.call handler, .popal] c₁ := rfl
    rw [hpushed, runForward, stackStep, hret]
    rfl
  obtain ⟨⟨eax, ebx, ecx, edx, esi, edi, ebp, cf, zf, stack⟩, world⟩ := c₂
  simp only at hstack hworld
  subst hstack hworld
  unfold trap
  rw [hcalled]
  exact if_pos rfl

/-- A program sees nothing of interrupts: with them at whatever points, its registers, flags and stack are those
    of the same instructions without them. -/
theorem interrupts_transparent (c : StackCpu κ) {events : List (UserEvent κ)}
    (hhandled : ∀ e ∈ events, e.Handled) :
    (Runs.run userStep c events).map StackCpu.toRegs
      = Runs.run (fun regs f => f regs) c.toRegs (events.filterMap instrOf) := by
  induction events generalizing c with
  | nil => rfl
  | cons e events ih =>
      obtain ⟨he, hevents⟩ := List.forall_mem_cons.1 hhandled
      cases e with
      | instr f =>
          change ((userStep c (.instr f)).bind fun c => Runs.run userStep c events).map _
            = (f c.toRegs).bind fun regs => Runs.run _ regs (events.filterMap instrOf)
          rw [userStep]
          cases f c.toRegs with
          | none => rfl
          | some regs => exact ih _ hevents
      | interrupt handler frame =>
          obtain ⟨result, hcdecl, hback⟩ := he
          obtain ⟨⟨v, k⟩, hresult⟩ := Option.isSome_iff_exists.1 (hback c.world)
          change ((userStep c (.interrupt handler frame)).bind fun c => Runs.run userStep c events).map _ = _
          rw [userStep, handlerWrapper_eq hcdecl frame hresult, Option.bind_some, ih _ hevents]
          rfl

/-- A handler that counts, and leaves nothing in its scratch registers. -/
def smallHandler : CpuRoutine Nat := fun c => some { c with eax := 0, ecx := 0, edx := 0, world := c.world + 1 }

theorem smallHandler_cdecl : Cdecl smallHandler 0 fun _ k => some (0, k + 1) where
  returns c args below v k hstack hargs hresult := by
    obtain rfl := List.length_eq_zero_iff.1 hargs
    cases hresult
    exact ⟨_, [], rfl, hstack, rfl, rfl, rfl, rfl, rfl, rfl, rfl⟩
  stays _ _ _ _ _ hresult := by cases hresult

/-- One instruction, with two interrupts around it. -/
theorem interrupts_transparent_small :
    (Runs.run userStep ⟨smallCpu.toRegs, 0⟩ [.interrupt smallHandler [13, 14, 15],
      .instr fun regs => some { regs with eax := 5 }, .interrupt smallHandler [13, 14, 15]]).map StackCpu.toRegs
      = some { smallCpu.toRegs with eax := 5 } := by
  refine interrupts_transparent ⟨smallCpu.toRegs, 0⟩ fun e he => ?_
  rcases List.mem_cons.1 he with rfl | he
  · exact ⟨_, smallHandler_cdecl, fun _ => rfl⟩
  rcases List.mem_cons.1 he with rfl | he
  · trivial
  · rw [List.mem_singleton.1 he]
    exact ⟨_, smallHandler_cdecl, fun _ => rfl⟩

end BaseOs
