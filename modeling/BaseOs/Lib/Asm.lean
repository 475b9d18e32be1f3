import Mathlib

set_option autoImplicit false

/-! # A fragment of 32-bit x86

The instructions that routines for copying and filling are written with: tests and jumps, moves of bytes,
arithmetic with a constant, and the two repeated string instructions. A program is a list in which labels
stand between instructions; what is still to be done is again such a list, and a jump goes on with the
program from its label on. Memory is reached by selector and address through a mapping, and an access to
what is not mapped is a fault.

`run` executes with fuel, `Ends` says how an execution ends without naming the fuel, and a proof follows
the program by `Ends.step`, one instruction after the other. -/

namespace Asm

inductive Reg
  | eax | ecx | edx | esi | edi

/-- The registers, two flags and memory. -/
structure Cpu where
  eax : UInt32
  ecx : UInt32
  edx : UInt32
  esi : UInt32
  edi : UInt32
  ds : UInt16
  es : UInt16
  zf : Bool
  df : Bool
  mem : Nat → UInt8

def Cpu.get (c : Cpu) : Reg → UInt32
  | .eax => c.eax
  | .ecx => c.ecx
  | .edx => c.edx
  | .esi => c.esi
  | .edi => c.edi

def Cpu.set (c : Cpu) (v : UInt32) : Reg → Cpu
  | .eax => { c with eax := v }
  | .ecx => { c with ecx := v }
  | .edx => { c with edx := v }
  | .esi => { c with esi := v }
  | .edi => { c with edi := v }

/-- The result of an arithmetic instruction goes to a register and decides the zero flag. -/
def Cpu.result (c : Cpu) (v : UInt32) (r : Reg) : Cpu := { c.set v r with zf := v == 0 }

inductive Instr (α : Type*)
  | label (l : α)
  /-- `testl %r, %r'`. -/
  | test (r r' : Reg)
  /-- `testl $imm, %r`. -/
  | testImm (imm : UInt32) (r : Reg)
  | jz (l : α)
  | jmp (l : α)
  /-- `movb (%esi), %al`. -/
  | loadByte
  /-- `movb %al, (%edi)`. -/
  | storeByte
  | addImm (imm : UInt32) (r : Reg)
  | subImm (imm : UInt32) (r : Reg)
  | shrImm (imm : UInt32) (r : Reg)
  | andImm (imm : UInt32) (r : Reg)
  /-- `movl %r, %r'`. -/
  | mov (r r' : Reg)
  /-- `movw %ds, %dx`. -/
  | movDsDx
  /-- `movw %dx, %es`. -/
  | movDxEs
  | cld
  /-- `rep stosl`. -/
  | repStos
  /-- `rep movsl`. -/
  | repMovs

/-! ## Memory -/

section Memory

variable (addr : Nat → Option Nat)

/-- The bytes from an address on; `none` if one of them is not mapped. -/
def loadBytes (mem : Nat → UInt8) : UInt32 → Nat → Option (List UInt8)
  | _, 0 => some []
  | a, n + 1 =>
    match addr a.toNat, loadBytes mem (a + 1) n with
    | some p, some bs => some (mem p :: bs)
    | _, _ => none

/-- Memory after bytes have been stored from an address on. -/
def storeBytes : UInt32 → List UInt8 → (Nat → UInt8) → Option (Nat → UInt8)
  | _, [], mem => some mem
  | a, b :: bs, mem =>
    match addr a.toNat with
    | some p => storeBytes (a + 1) bs (Function.update mem p b)
    | none => none

end Memory

/-- The bytes of a register, lowest first. -/
def dwordBytes (v : UInt32) : List UInt8 :=
  [v.toUInt8, (v >>> 8).toUInt8, (v >>> 16).toUInt8, (v >>> 24).toUInt8]

/-- Loading a byte replaces the lowest byte of the register. -/
theorem toUInt8_loaded (v : UInt32) (b : UInt8) : ((v &&& 0xFFFFFF00) ||| b.toUInt32).toUInt8 = b := by
  have hmask : (0xFFFFFF00 : UInt32).toUInt8 = 0 := rfl
  rw [UInt32.toUInt8_or, UInt32.toUInt8_and, hmask, UInt8.and_zero, UInt8.zero_or,
    UInt8.toUInt8_toUInt32]

/-- A selector passes through the lower half of a register. -/
theorem toUInt16_loaded (v : UInt32) (w : UInt16) :
    ((v &&& 0xFFFF0000) ||| w.toUInt32).toUInt16 = w := by
  have hmask : (0xFFFF0000 : UInt32).toUInt16 = 0 := rfl
  rw [UInt32.toUInt16_or, UInt32.toUInt16_and, hmask, UInt16.and_zero, UInt16.zero_or,
    UInt16.toUInt16_toUInt32]

theorem ne_zero_of_toNat {v : UInt32} {k : Nat} (h : v.toNat = k + 1) : v ≠ 0 := by
  rintro rfl
  cases h

theorem toNat_pred {v : UInt32} {k : Nat} (h : v.toNat = k + 1) : (v - 1).toNat = k := by
  have hle : (1 : UInt32) ≤ v := by
    rw [UInt32.le_iff_toNat_le, UInt32.toNat_one]
    omega
  rw [UInt32.toNat_sub_of_le v 1 hle, UInt32.toNat_one, h, Nat.add_sub_cancel]

/-- A count as so many dwords and a rest. -/
theorem toNat_dwords (v : UInt32) : v.toNat = 4 * (v >>> 2).toNat + (v &&& 3).toNat := by
  have hdiv : (v >>> 2).toNat = v.toNat / 4 := by
    rw [UInt32.toNat_shiftRight]
    exact Nat.shiftRight_eq_div_pow _ 2
  have hmod : (v &&& 3).toNat = v.toNat % 4 := by
    rw [UInt32.toNat_and]
    exact Nat.and_two_pow_sub_one_eq_mod _ 2
  rw [hdiv, hmod, Nat.div_add_mod]

/-- The lowest byte of a register. -/
theorem and_lowByte (v : UInt32) : v &&& 0xFF = v.toUInt8.toUInt32 := by
  rw [UInt32.toUInt32_toUInt8]
  apply UInt32.toNat_inj.1
  rw [UInt32.toNat_and, UInt32.toNat_mod]
  exact Nat.and_two_pow_sub_one_eq_mod _ 8

/-- The register that holds a byte in each of its four places. -/
theorem dwordBytes_fill (b : UInt8) :
    dwordBytes (b.toUInt32 <<< 24 ||| b.toUInt32 <<< 16 ||| b.toUInt32 <<< 8 ||| b.toUInt32)
      = List.replicate 4 b := by
  have hall : ∀ i : Fin 256, dwordBytes
      ((UInt8.ofFin i).toUInt32 <<< 24 ||| (UInt8.ofFin i).toUInt32 <<< 16 |||
        (UInt8.ofFin i).toUInt32 <<< 8 ||| (UInt8.ofFin i).toUInt32)
        = List.replicate 4 (UInt8.ofFin i) := by decide +kernel
  have h := hall b.toFin
  rwa [UInt8.ofFin_toFin] at h

/-! ## Jumps forward -/

section Forward

variable {α ι σ : Type*} [DecidableEq α]

/-- Execute instructions that only jump forward: `name` gives the name of a label, `step` a state and the label
    jumped to. With a label to go to, instructions are passed over up to it. -/
def runForward (name : ι → Option α) (step : σ → ι → Option (σ × Option α)) : Option α → List ι → σ → Option σ
  | _, [], c => some c
  | some l, i :: rest, c => runForward name step (if name i = some l then none else some l) rest c
  | none, i :: rest, c =>
    match step c i with
    | some (c', jump) => runForward name step jump rest c'
    | none => none

variable {name : ι → Option α} {step : σ → ι → Option (σ × Option α)} {i : ι} {rest : List ι} {c c' : σ}

theorem runForward_next {jump : Option α} (h : step c i = some (c', jump)) :
    runForward name step none (i :: rest) c = runForward name step jump rest c' := by
  rw [runForward, h]

end Forward

/-! ## Execution -/

section Execution

variable {α : Type*} [DecidableEq α]

def Instr.isLabel (l : α) : Instr α → Bool
  | .label l' => l' = l
  | _ => false

/-- The program from a label on. -/
def target (code : List (Instr α)) (l : α) : List (Instr α) := code.dropWhile fun i => !i.isLabel l

variable (code : List (Instr α)) (addr : UInt16 → Nat → Option Nat)

/-- The direction of the string instructions. -/
def stride (c : Cpu) : UInt32 := if c.df then -4 else 4

/-- One instruction, with what comes after it; a repeated one does one round. `none` is a fault. -/
def step (rest : List (Instr α)) (c : Cpu) : Instr α → Option (List (Instr α) × Cpu)
  | .label _ => some (rest, c)
  | .test r r' => some (rest, { c with zf := c.get r &&& c.get r' == 0 })
  | .testImm imm r => some (rest, { c with zf := imm &&& c.get r == 0 })
  | .jz l => some (if c.zf then target code l else rest, c)
  | .jmp l => some (target code l, c)
  | .loadByte =>
    (addr c.ds c.esi.toNat).map fun p =>
      (rest, { c with eax := (c.eax &&& 0xFFFFFF00) ||| (c.mem p).toUInt32 })
  | .storeByte =>
    (addr c.ds c.edi.toNat).map fun p => (rest, { c with mem := Function.update c.mem p c.eax.toUInt8 })
  | .addImm imm r => some (rest, c.result (c.get r + imm) r)
  | .subImm imm r => some (rest, c.result (c.get r - imm) r)
  | .shrImm imm r => some (rest, c.result (c.get r >>> imm) r)
  | .andImm imm r => some (rest, c.result (c.get r &&& imm) r)
  | .mov r r' => some (rest, c.set (c.get r) r')
  | .movDsDx => some (rest, { c with edx := (c.edx &&& 0xFFFF0000) ||| c.ds.toUInt32 })
  | .movDxEs => some (rest, { c with es := c.edx.toUInt16 })
  | .cld => some (rest, { c with df := false })
  | .repStos =>
    if c.ecx = 0 then some (rest, c)
    else
      (storeBytes (addr c.es) c.edi (dwordBytes c.eax) c.mem).map fun mem =>
        (.repStos :: rest, { c with mem := mem, edi := c.edi + stride c, ecx := c.ecx - 1 })
  | .repMovs =>
    if c.ecx = 0 then some (rest, c)
    else
      ((loadBytes (addr c.ds) c.mem c.esi 4).bind fun bs =>
        storeBytes (addr c.es) c.edi bs c.mem).map fun mem =>
          (.repMovs :: rest,
            { c with mem := mem, esi := c.esi + stride c, edi := c.edi + stride c, ecx := c.ecx - 1 })

/-- Execute at most `fuel` instructions of what is to be done. The inner `none` is a fault, the outer one
    an execution that has not ended. -/
def run : Nat → List (Instr α) → Cpu → Option (Option Cpu)
  | _, [], c => some (some c)
  | 0, _ :: _, _ => none
  | fuel + 1, i :: rest, c =>
    match step code addr rest c i with
    | some (rest', c') => run fuel rest' c'
    | none => some none

/-- The execution ends, with a state or with a fault. -/
def Ends (todo : List (Instr α)) (c : Cpu) (out : Option Cpu) : Prop :=
  ∃ fuel, run code addr fuel todo c = some out

variable {code addr} {todo rest rest' : List (Instr α)} {i : Instr α} {c c' : Cpu} {out out' : Option Cpu}

@[simp]
theorem run_nil (fuel : Nat) (c : Cpu) : run code addr fuel [] c = some (some c) := by
  cases fuel <;> rfl

theorem Ends.nil (c : Cpu) : Ends code addr [] c (some c) := ⟨0, rfl⟩

/-- One instruction, and then the rest. -/
theorem Ends.step (h : step code addr rest c i = some (rest', c')) (hrest : Ends code addr rest' c' out) :
    Ends code addr (i :: rest) c out := by
  obtain ⟨fuel, hrun⟩ := hrest
  exact ⟨fuel + 1, by rw [run, h]; exact hrun⟩

theorem Ends.fault (h : Asm.step code addr rest c i = none) : Ends code addr (i :: rest) c none :=
  ⟨1, by rw [run, h]⟩

/-- An execution that has ended does not go on with more fuel. -/
theorem run_add {fuel : Nat} (h : run code addr fuel todo c = some out) (extra : Nat) :
    run code addr (fuel + extra) todo c = some out := by
  induction fuel generalizing todo c with
  | zero =>
      cases todo with
      | nil => simpa only [run_nil] using h
      | cons i rest => cases h
  | succ fuel ih =>
      cases todo with
      | nil => simpa only [run_nil] using h
      | cons i rest =>
          rw [run] at h
          rw [Nat.succ_add, run]
          cases hstep : Asm.step code addr rest c i with
          | none => rwa [hstep] at h
          | some next =>
              rw [hstep] at h
              exact ih h

/-- There is one end. -/
theorem Ends.unique (h : Ends code addr todo c out) (h' : Ends code addr todo c out') : out = out' := by
  obtain ⟨fuel, hrun⟩ := h
  obtain ⟨fuel', hrun'⟩ := h'
  have hleft := run_add hrun fuel'
  have hright := run_add hrun' fuel
  rw [Nat.add_comm, hright] at hleft
  exact (Option.some.inj hleft).symm

/-! ## What an execution leaves in memory -/

variable (code addr)

/-- The execution ends and leaves this memory; `none` is for a fault. -/
def Leaves (todo : List (Instr α)) (c : Cpu) (mem : Option (Nat → UInt8)) : Prop :=
  ∃ out, Ends code addr todo c out ∧ out.map Cpu.mem = mem

variable {code addr} {mem : Option (Nat → UInt8)} {l : α}

theorem Leaves.nil (c : Cpu) : Leaves code addr [] c (some c.mem) := ⟨some c, Ends.nil c, rfl⟩

theorem Leaves.unique {mem' : Option (Nat → UInt8)} (h : Leaves code addr todo c mem)
    (h' : Leaves code addr todo c mem') : mem = mem' := by
  obtain ⟨out, hends, rfl⟩ := h
  obtain ⟨out', hends', rfl⟩ := h'
  rw [hends.unique hends']

theorem Leaves.step (h : Asm.step code addr rest c i = some (rest', c'))
    (hrest : Leaves code addr rest' c' mem) : Leaves code addr (i :: rest) c mem := by
  obtain ⟨out, hends, hmem⟩ := hrest
  exact ⟨out, Ends.step h hends, hmem⟩

theorem Leaves.fault (h : Asm.step code addr rest c i = none) : Leaves code addr (i :: rest) c none :=
  ⟨none, Ends.fault h, rfl⟩

theorem Leaves.jmp (h : Leaves code addr (target code l) c mem) :
    Leaves code addr (.jmp l :: rest) c mem := Leaves.step rfl h

/-- A jump on zero goes on with the one or the other program. -/
theorem Leaves.jz (htaken : c.zf = true → Leaves code addr (target code l) c mem)
    (hnext : c.zf = false → Leaves code addr rest c mem) : Leaves code addr (.jz l :: rest) c mem := by
  cases hzf : c.zf with
  | true => exact Leaves.step (by rw [Asm.step, if_pos hzf]) (htaken hzf)
  | false => exact Leaves.step (by rw [Asm.step, hzf, if_neg Bool.false_ne_true]) (hnext hzf)

variable {r : Reg} {k : Nat}

/-- The head of a loop that counts a register down leaves the loop at zero. -/
theorem Leaves.loop_done (hzero : (c.get r).toNat = 0)
    (h : Leaves code addr (target code l) { c with zf := true } mem) :
    Leaves code addr (.test r r :: .jz l :: rest) c mem := by
  have hreg : c.get r = 0 := UInt32.toNat_inj.1 hzero
  refine Leaves.step (by rw [Asm.step, hreg]; rfl) (Leaves.jz (fun _ => h) ?_)
  intro hzf
  cases hzf

theorem Leaves.loop_round (hcount : (c.get r).toNat = k + 1)
    (h : Leaves code addr rest { c with zf := false } mem) :
    Leaves code addr (.test r r :: .jz l :: rest) c mem := by
  have hreg : (c.get r &&& c.get r == 0) = false := by
    rw [UInt32.and_self, beq_eq_false_iff_ne]
    exact ne_zero_of_toNat hcount
  refine Leaves.step (by rw [Asm.step, hreg]) (Leaves.jz ?_ fun _ => h)
  intro hzf
  cases hzf

end Execution

end Asm
