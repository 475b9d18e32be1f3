import BaseOs.Lib.Asm
import BaseOs.Lib.Stores

set_option autoImplicit false

/-! # String instructions with a direction

The instructions that overlapping ranges are moved with and wide values are filled in with: a comparison,
a jump forward, an address computation, the direction flag, and the repeated string instructions for
single bytes, words and dwords. A repeated move is a list of moves of single bytes, made one after the
other (`moveAll`). It does what it looks like if no move touches what an earlier one has written
(`Orderly`); so overlapping ranges have to be moved in the right order. -/

namespace Asm

/-! ## Moves one after the other -/

section Moves

variable {α : Type*}

/-- A move of one element. -/
structure Move where
  src : Nat
  dst : Nat

def moveAll (mem : Nat → α) (moves : List Move) : Nat → α :=
  moves.foldl (fun mem m => Function.update mem m.dst (mem m.src)) mem

/-- No move reads or writes where an earlier one has written. -/
def Orderly (moves : List Move) : Prop := moves.Pairwise fun m m' => m'.src ≠ m.dst ∧ m'.dst ≠ m.dst

variable {moves : List Move} {mem : Nat → α} {m : Move} {a : Nat}

@[simp]
theorem moveAll_nil (mem : Nat → α) : moveAll mem [] = mem := rfl

theorem moveAll_cons (mem : Nat → α) (m : Move) (moves : List Move) :
    moveAll mem (m :: moves) = moveAll (Function.update mem m.dst (mem m.src)) moves := rfl

theorem moveAll_frame (h : ∀ m ∈ moves, m.dst ≠ a) : moveAll mem moves a = mem a := by
  induction moves generalizing mem with
  | nil => rfl
  | cons m moves ih =>
      obtain ⟨hm, hmoves⟩ := List.forall_mem_cons.1 h
      rw [moveAll_cons, ih hmoves, Function.update_of_ne hm.symm]

/-- Every destination holds what its source held at the beginning. -/
theorem moveAll_moved (h : Orderly moves) (hm : m ∈ moves) : moveAll mem moves m.dst = mem m.src := by
  induction moves generalizing mem with
  | nil => cases hm
  | cons m' moves ih =>
      obtain ⟨hfirst, hrest⟩ := List.pairwise_cons.1 h
      rw [moveAll_cons]
      rcases List.mem_cons.1 hm with rfl | hm
      · rw [moveAll_frame fun m' hm' => (hfirst m' hm').2, Function.update_self]
      · rw [ih hrest hm, Function.update_of_ne (hfirst m hm).1]

end Moves

/-! ## The instructions -/

/-- The registers with one more flag. -/
structure CarryCpu extends Cpu where
  cf : Bool

inductive StringInstr (α : Type*)
  | label (l : α)
  | movDsDx
  | movDxEs
  | cld
  | std
  /-- `cmp %r, %r'`: the flags of `r' - r`. -/
  | cmp (r r' : Reg)
  /-- A jump to a label further on, if there was no borrow. -/
  | jae (l : α)
  /-- `leal disp(%r, %r'), %r`. -/
  | lea (disp : UInt32) (r r' : Reg)
  /-- `rep movsb`. -/
  | repMovsb
  /-- `rep stosb`, `rep stosw` or `rep stosl`, by the number of bytes. -/
  | repStos (width : Nat)

/-- What the index registers change by. -/
def pace (df : Bool) (width : Nat) : UInt32 := if df then -UInt32.ofNat width else UInt32.ofNat width

section Execution

variable {α : Type*} [DecidableEq α] (addr : UInt16 → Nat → Option Nat)

/-- So many rounds of a move of bytes; `none` is a fault. -/
def repMovsb : Nat → CarryCpu → Option CarryCpu
  | 0, c => some c
  | n + 1, c =>
    match addr c.ds c.esi.toNat, addr c.es c.edi.toNat with
    | some s, some d =>
      repMovsb n
        { c with
          mem := Function.update c.mem d (c.mem s)
          esi := c.esi + pace c.df 1
          edi := c.edi + pace c.df 1
          ecx := c.ecx - 1 }
    | _, _ => none

/-- So many rounds of a store of the lowest bytes of `eax`. -/
def repStos (width : Nat) : Nat → CarryCpu → Option CarryCpu
  | 0, c => some c
  | n + 1, c =>
    match storeBytes (addr c.es) c.edi ((dwordBytes c.eax).take width) c.mem with
    | some mem => repStos width n { c with mem := mem, edi := c.edi + pace c.df width, ecx := c.ecx - 1 }
    | none => none

/-- One instruction, with the label it jumps to. -/
def stringStep (c : CarryCpu) : StringInstr α → Option (CarryCpu × Option α)
  | .label _ => some (c, none)
  | .movDsDx => some ({ c with edx := (c.edx &&& 0xFFFF0000) ||| c.ds.toUInt32 }, none)
  | .movDxEs => some ({ c with es := c.edx.toUInt16 }, none)
  | .cld => some ({ c with df := false }, none)
  | .std => some ({ c with df := true }, none)
  | .cmp r r' => some ({ c with zf := c.get r' == c.get r, cf := c.get r' < c.get r }, none)
  | .jae l => some (c, if c.cf then none else some l)
  | .lea disp r r' => some ({ c with toCpu := c.set (c.get r + c.get r' + disp) r }, none)
  | .repMovsb => (repMovsb addr c.ecx.toNat c).map fun c => (c, none)
  | .repStos width => (repStos addr width c.ecx.toNat c).map fun c => (c, none)

def StringInstr.name : StringInstr α → Option α
  | .label l => some l
  | _ => none

/-- Execute a list of instructions that only jump forward. -/
def forward : Option α → List (StringInstr α) → CarryCpu → Option CarryCpu :=
  runForward StringInstr.name (stringStep addr)

variable {addr} {c : CarryCpu} {n width : Nat} {φ : Nat → Nat}

theorem forward_next {i : StringInstr α} {rest : List (StringInstr α)} {c' : CarryCpu} {jump : Option α}
    (h : stringStep addr c i = some (c', jump)) : forward addr none (i :: rest) c = forward addr jump rest c' :=
  runForward_next h

theorem forward_jae {rest : List (StringInstr α)} (l : α) (h : c.cf = false) :
    forward addr none (.jae l :: rest) c = forward addr (some l) rest c :=
  forward_next (by rw [stringStep, h, if_neg Bool.false_ne_true])

theorem forward_jae_not {rest : List (StringInstr α)} (l : α) (h : c.cf = true) :
    forward addr none (.jae l :: rest) c = forward addr none rest c :=
  forward_next (by rw [stringStep, h, if_pos rfl])

theorem forward_lea {rest : List (StringInstr α)} {disp v : UInt32} {r r' : Reg}
    (h : c.get r + c.get r' + disp = v) :
    forward addr none (.lea disp r r' :: rest) c = forward addr none rest { c with toCpu := c.set v r } :=
  forward_next (by rw [stringStep, h])

theorem forward_std {rest : List (StringInstr α)} :
    forward addr none (.std :: rest) c = forward addr none rest { c with df := true } := forward_next rfl

theorem forward_label {rest : List (StringInstr α)} (l : α) :
    forward addr none (.label l :: rest) c = forward addr none rest c := forward_next rfl

theorem forward_repMovsb (c : CarryCpu) :
    forward addr none [.repMovsb (α := α)] c = repMovsb addr c.ecx.toNat c := by
  rw [forward, runForward, stringStep]
  cases repMovsb addr c.ecx.toNat c <;> rfl

theorem forward_repStos (width : Nat) (c : CarryCpu) :
    forward addr none [.repStos (α := α) width] c = repStos addr width c.ecx.toNat c := by
  rw [forward, runForward, stringStep]
  cases repStos addr width c.ecx.toNat c <;> rfl

/-! ## The repeated instructions -/

/-- The address after `k` rounds. -/
def reached (a : UInt32) (df : Bool) (width k : Nat) : UInt32 := a + UInt32.ofNat k * pace df width

theorem reached_zero (a : UInt32) (df : Bool) (width : Nat) : reached a df width 0 = a := by
  have hzero : UInt32.ofNat 0 = 0 := rfl
  rw [reached, hzero, UInt32.zero_mul, UInt32.add_zero]

theorem reached_succ (a : UInt32) (df : Bool) (width k : Nat) :
    reached (a + pace df width) df width k = reached a df width (k + 1) := by
  unfold reached
  rw [UInt32.ofNat_add, UInt32.add_mul, UInt32.add_comm (UInt32.ofNat k * _), ← UInt32.add_assoc]
  have hone : UInt32.ofNat 1 = 1 := rfl
  rw [hone, UInt32.one_mul]

/-- The moves of the rounds, in memory. -/
def rounds (φ : Nat → Nat) (src dst : UInt32) (df : Bool) (n : Nat) : List Move :=
  (List.range n).map fun k => ⟨φ (reached src df 1 k).toNat, φ (reached dst df 1 k).toNat⟩

theorem rounds_succ (φ : Nat → Nat) (src dst : UInt32) (df : Bool) (n : Nat) :
    rounds φ src dst df (n + 1)
      = ⟨φ src.toNat, φ dst.toNat⟩ :: rounds φ (src + pace df 1) (dst + pace df 1) df n := by
  unfold rounds
  rw [List.range_succ_eq_map, List.map_cons, List.map_map, reached_zero, reached_zero]
  simp only [Function.comp_def, reached_succ]

/-- Where everything is mapped, the repeated move makes its moves. -/
theorem repMovsb_eq (hes : c.es = c.ds)
    (hsrc : ∀ k < n, addr c.ds (reached c.esi c.df 1 k).toNat = some (φ (reached c.esi c.df 1 k).toNat))
    (hdst : ∀ k < n, addr c.ds (reached c.edi c.df 1 k).toNat = some (φ (reached c.edi c.df 1 k).toNat)) :
    ∃ c', repMovsb addr n c = some c' ∧ c'.mem = moveAll c.mem (rounds φ c.esi c.edi c.df n) ∧
      c'.df = c.df := by
  induction n generalizing c with
  | zero => exact ⟨c, rfl, rfl, rfl⟩
  | succ n ih =>
      have hs := hsrc 0 (Nat.succ_pos n)
      have hd := hdst 0 (Nat.succ_pos n)
      rw [reached_zero] at hs hd
      rw [repMovsb, hes, hs, hd, rounds_succ, moveAll_cons]
      refine ih rfl (fun k hk => ?_) (fun k hk => ?_)
      · simp only [reached_succ]
        exact hsrc (k + 1) (Nat.succ_lt_succ hk)
      · simp only [reached_succ]
        exact hdst (k + 1) (Nat.succ_lt_succ hk)

/-- The stores of a list of bytes, in memory. -/
def byteStores (φ : Nat → Nat) (a : UInt32) (bs : List UInt8) (n : Nat) : List (Stores.Store UInt8) :=
  (List.range n).map fun m => ⟨φ (a + UInt32.ofNat m).toNat, bs.getD (m % bs.length) 0⟩

theorem byteStores_cons (φ : Nat → Nat) (a : UInt32) (b : UInt8) (bs : List UInt8) :
    byteStores φ a (b :: bs) (b :: bs).length
      = ⟨φ a.toNat, b⟩ :: byteStores φ (a + 1) bs bs.length := by
  unfold byteStores
  rw [List.length_cons, List.range_succ_eq_map, List.map_cons, List.map_map]
  have hzero : UInt32.ofNat 0 = 0 := rfl
  refine congrArg₂ List.cons ?_ (List.map_congr_left fun m hm => ?_)
  · rw [hzero, UInt32.add_zero, Nat.zero_mod, List.getD_cons_zero]
  · have hlt := List.mem_range.1 hm
    have hone : UInt32.ofNat 1 = 1 := rfl
    rw [Function.comp_apply, Nat.mod_eq_of_lt (Nat.succ_lt_succ hlt), Nat.mod_eq_of_lt hlt, List.getD_cons_succ,
      Nat.succ_eq_add_one, UInt32.ofNat_add, hone, UInt32.add_comm (UInt32.ofNat m), UInt32.add_assoc]

theorem storeBytes_eq {map : Nat → Option Nat} {a : UInt32} {bs : List UInt8} {mem : Nat → UInt8}
    (hmap : ∀ m < bs.length, map (a + UInt32.ofNat m).toNat = some (φ (a + UInt32.ofNat m).toNat)) :
    storeBytes map a bs mem = some (Stores.apply mem (byteStores φ a bs bs.length)) := by
  induction bs generalizing a mem with
  | nil => rfl
  | cons b bs ih =>
      have hzero : UInt32.ofNat 0 = 0 := rfl
      have hone : UInt32.ofNat 1 = 1 := rfl
      have hfirst := hmap 0 (Nat.succ_pos _)
      rw [hzero, UInt32.add_zero] at hfirst
      rw [storeBytes, hfirst, byteStores_cons, Stores.apply_cons]
      refine ih fun m hm => ?_
      have hnext := hmap (m + 1) (Nat.succ_lt_succ hm)
      rwa [UInt32.ofNat_add, hone, UInt32.add_comm (UInt32.ofNat m), ← UInt32.add_assoc] at hnext

theorem byteStores_add (φ : Nat → Nat) (a : UInt32) (bs : List UInt8) (n : Nat) :
    byteStores φ a bs (bs.length + n)
      = byteStores φ a bs bs.length ++ byteStores φ (a + UInt32.ofNat bs.length) bs n := by
  unfold byteStores
  rw [List.range_add, List.map_append, List.map_map]
  congr 1
  refine List.map_congr_left fun m _ => ?_
  rw [Function.comp_apply, Nat.add_mod_left, UInt32.ofNat_add, UInt32.add_assoc]

/-- Where everything is mapped, the repeated store stores the same bytes again and again. -/
theorem repStos_eq (hes : c.es = c.ds) (hdf : c.df = false) {bs : List UInt8}
    (hbs : (dwordBytes c.eax).take width = bs) (hwidth : bs.length = width)
    (hdst : ∀ m < width * n, addr c.ds (c.edi + UInt32.ofNat m).toNat
      = some (φ (c.edi + UInt32.ofNat m).toNat)) :
    ∃ c', repStos addr width n c = some c' ∧
      c'.mem = Stores.apply c.mem (byteStores φ c.edi bs (width * n)) := by
  induction n generalizing c with
  | zero => exact ⟨c, rfl, rfl⟩
  | succ n ih =>
      have hpace : pace c.df width = UInt32.ofNat width := by
        rw [pace, hdf, if_neg Bool.false_ne_true]
      have hsize : width * (n + 1) = width + width * n := by rw [Nat.mul_succ, Nat.add_comm]
      rw [hsize] at hdst
      have hstore := @storeBytes_eq φ (addr c.es) c.edi bs c.mem fun m hm => by
        rw [hes]
        exact hdst m (by omega)
      rw [repStos, hbs, hstore, hpace]
      obtain ⟨c', hrun, hmem⟩ := @ih
        { c with
          mem := Stores.apply c.mem (byteStores φ c.edi bs bs.length)
          edi := c.edi + UInt32.ofNat width
          ecx := c.ecx - 1 } hes hdf hbs fun m hm => by
            have hnext := hdst (width + m) (by omega)
            rwa [UInt32.ofNat_add, ← UInt32.add_assoc] at hnext
      refine ⟨c', hrun, hmem.trans ?_⟩
      rw [hsize, ← hwidth, byteStores_add, Stores.apply_append]

end Execution

end Asm
