import BaseOs.Paging.Screens
import BaseOs.Lib.Asm

set_option autoImplicit false

/-! # The copying and filling routines (`lib.c`)

`memcpy` and `memset` are written as instructions: single bytes until the destination is aligned, four
bytes at a time with a repeated string instruction, and single bytes for what is left. They are executed
here instruction by instruction. What they leave in memory, and whether they fault, is what a loop over
single bytes does: for filling always, for copying as long as no byte of the source is one of the
destination. -/

namespace BaseOs

open Asm

/-! ## The instructions -/

inductive Label
  | top | aligned | bottom | done
  deriving DecidableEq

/-- What both routines do after the tail loop. -/
def asmDone : List (Instr Label) := [.label .done]

def memcpyBottom : List (Instr Label) :=
  .label .bottom :: .test .edx .edx :: .jz .done :: .loadByte :: .storeByte :: .addImm 1 .edi ::
    .addImm 1 .esi :: .subImm 1 .edx :: .jmp .bottom :: asmDone

def memcpyAligned : List (Instr Label) :=
  .label .aligned :: .movDsDx :: .movDxEs :: .mov .ecx .edx :: .shrImm 2 .ecx :: .andImm 3 .edx ::
    .cld :: .repMovs :: memcpyBottom

/-- `memcpy`, with the destination in `edi`, the source in `esi` and the count in `ecx`. -/
def memcpyCode : List (Instr Label) :=
  .label .top :: .test .ecx .ecx :: .jz .done :: .testImm 3 .edi :: .jz .aligned :: .loadByte ::
    .storeByte :: .addImm 1 .edi :: .addImm 1 .esi :: .subImm 1 .ecx :: .jmp .top :: memcpyAligned

def memsetBottom : List (Instr Label) :=
  .label .bottom :: .test .edx .edx :: .jz .done :: .storeByte :: .addImm 1 .edi ::
    .subImm 1 .edx :: .jmp .bottom :: asmDone

def memsetAligned : List (Instr Label) :=
  .label .aligned :: .movDsDx :: .movDxEs :: .mov .ecx .edx :: .shrImm 2 .ecx :: .andImm 3 .edx ::
    .cld :: .repStos :: memsetBottom

/-- `memset`, with the destination in `edi`, the count in `ecx` and four copies of the byte in `eax`. -/
def memsetCode : List (Instr Label) :=
  .label .top :: .test .ecx .ecx :: .jz .done :: .testImm 3 .edi :: .jz .aligned :: .storeByte ::
    .addImm 1 .edi :: .subImm 1 .ecx :: .jmp .top :: memsetAligned

/-- The registers as `memcpy(dest, src, n)` loads them. -/
def memcpyEntry (c : Cpu) (dest src n : UInt32) : Cpu := { c with esi := src, edi := dest, ecx := n }

/-- The registers as `memset(s, c, n)` loads them; `value` is its second argument. -/
def memsetEntry (c : Cpu) (s value n : UInt32) : Cpu :=
  let b := value &&& 0xFF
  { c with eax := b <<< 24 ||| b <<< 16 ||| b <<< 8 ||| b, edi := s, ecx := n }

/-- `memset`, byte by byte; `none` is a page fault. -/
def memset (addr : Nat → Option Nat) (b : UInt8) : Nat → Nat → Bytes → Option Bytes
  | _, 0, mem => some mem
  | dst, n + 1, mem =>
    match addr (dst % 2 ^ 32) with
    | some p => memset addr b (dst + 1) n (Function.update mem p b)
    | none => none

/-! ## The byte loops -/

section ByteLoops

variable {addr : Nat → Option Nat} {mem : Bytes} {d s : UInt32} {b : UInt8} {n : Nat}

/-- Addresses matter modulo the size of the address space. -/
theorem memcpy_mod (addr : Nat → Option Nat) (dst src n : Nat) (mem : Bytes) :
    memcpy addr (dst % 2 ^ 32) (src % 2 ^ 32) n mem = memcpy addr dst src n mem := by
  induction n generalizing dst src mem with
  | zero => rfl
  | succ n ih =>
      rw [memcpy, memcpy, Nat.mod_mod, Nat.mod_mod]
      cases addr (src % 2 ^ 32) with
      | none => rfl
      | some ps =>
          cases addr (dst % 2 ^ 32) with
          | none => rfl
          | some pd =>
              simp only
              rw [← ih (dst + 1), ← ih (dst % 2 ^ 32 + 1), Nat.mod_add_mod, Nat.mod_add_mod]

theorem memset_mod (addr : Nat → Option Nat) (b : UInt8) (dst n : Nat) (mem : Bytes) :
    memset addr b (dst % 2 ^ 32) n mem = memset addr b dst n mem := by
  induction n generalizing dst mem with
  | zero => rfl
  | succ n ih =>
      rw [memset, memset, Nat.mod_mod]
      cases addr (dst % 2 ^ 32) with
      | none => rfl
      | some p =>
          simp only
          rw [← ih (dst + 1), ← ih (dst % 2 ^ 32 + 1), Nat.mod_add_mod]

theorem memcpy_add (addr : Nat → Option Nat) (d s k : UInt32) (n : Nat) (mem : Bytes) :
    memcpy addr (d + k).toNat (s + k).toNat n mem
      = memcpy addr (d.toNat + k.toNat) (s.toNat + k.toNat) n mem := by
  rw [UInt32.toNat_add, UInt32.toNat_add, memcpy_mod]

theorem memset_add (addr : Nat → Option Nat) (b : UInt8) (d k : UInt32) (n : Nat) (mem : Bytes) :
    memset addr b (d + k).toNat n mem = memset addr b (d.toNat + k.toNat) n mem := by
  rw [UInt32.toNat_add, memset_mod]

theorem memcpy_succ (addr : Nat → Option Nat) (d s : UInt32) (n : Nat) (mem : Bytes) :
    memcpy addr d.toNat s.toNat (n + 1) mem
      = (addr s.toNat).bind fun ps => (addr d.toNat).bind fun pd =>
          memcpy addr (d + 1).toNat (s + 1).toNat n (Function.update mem pd (mem ps)) := by
  rw [memcpy, Nat.mod_eq_of_lt d.toNat_lt, Nat.mod_eq_of_lt s.toNat_lt]
  cases addr s.toNat with
  | none => rfl
  | some ps =>
      cases addr d.toNat with
      | none => rfl
      | some pd => exact (memcpy_add addr d s 1 n _).symm

theorem memset_succ (addr : Nat → Option Nat) (b : UInt8) (d : UInt32) (n : Nat) (mem : Bytes) :
    memset addr b d.toNat (n + 1) mem
      = (addr d.toNat).bind fun p => memset addr b (d + 1).toNat n (Function.update mem p b) := by
  rw [memset, Nat.mod_eq_of_lt d.toNat_lt]
  cases addr d.toNat with
  | none => rfl
  | some p => exact (memset_add addr b d 1 n _).symm

/-- No byte of the source is one of the destination. -/
def Apart (addr : Nat → Option Nat) (dst src n : Nat) : Prop :=
  ∀ i < n, ∀ j < n, ∀ p, addr ((src + i) % 2 ^ 32) = some p → addr ((dst + j) % 2 ^ 32) ≠ some p

theorem Apart.drop {k : Nat} (h : Apart addr d.toNat s.toNat (k + n)) (m : UInt32)
    (hm : m.toNat ≤ k) : Apart addr (d + m).toNat (s + m).toNat n := by
  intro i hi j hj p hsrc hdst
  rw [UInt32.toNat_add, Nat.mod_add_mod, Nat.add_assoc] at hsrc hdst
  exact h (m.toNat + i) (by omega) (m.toNat + j) (by omega) p hsrc hdst

theorem Apart.take {k : Nat} (h : Apart addr d.toNat s.toNat (k + n)) : Apart addr d.toNat s.toNat k :=
  fun i hi j hj => h i (by omega) j (by omega)

/-- A store elsewhere does not change what is loaded. -/
theorem loadBytes_update {p : Nat} (v : UInt8) (k : Nat)
    (h : ∀ i < k, addr ((s.toNat + i) % 2 ^ 32) ≠ some p) :
    loadBytes addr (Function.update mem p v) s k = loadBytes addr mem s k := by
  induction k generalizing s with
  | zero => rfl
  | succ k ih =>
      have hfirst := h 0 (by omega)
      rw [Nat.add_zero, Nat.mod_eq_of_lt s.toNat_lt] at hfirst
      have hrest : ∀ i < k, addr (((s + 1).toNat + i) % 2 ^ 32) ≠ some p := by
        intro i hi
        rw [UInt32.toNat_add, Nat.mod_add_mod, Nat.add_assoc, UInt32.toNat_one, Nat.add_comm 1]
        exact h (i + 1) (by omega)
      rw [loadBytes, loadBytes, ih hrest]
      cases haddr : addr s.toNat with
      | none => rfl
      | some q =>
          have hq : q ≠ p := by
            rintro rfl
            exact hfirst haddr
          cases loadBytes addr mem (s + 1) k with
          | none => rfl
          | some bs => simp only [Function.update_of_ne hq]

/-- Loading the first bytes, storing them and copying the others is copying all of them. -/
theorem memcpy_block (addr : Nat → Option Nat) (k n : Nat) (d s : UInt32) (mem : Bytes)
    (hapart : Apart addr d.toNat s.toNat k) :
    memcpy addr d.toNat s.toNat (k + n) mem
      = ((loadBytes addr mem s k).bind fun bs => storeBytes addr d bs mem).bind fun mem' =>
          memcpy addr (d.toNat + k) (s.toNat + k) n mem' := by
  induction k generalizing d s mem with
  | zero => rw [Nat.zero_add]; rfl
  | succ k ih =>
      rw [Nat.succ_add, memcpy_succ, loadBytes]
      cases hsrc : addr s.toNat with
      | none => rfl
      | some ps =>
          cases hdst : addr d.toNat with
          | none =>
              cases loadBytes addr mem (s + 1) k with
              | none => rfl
              | some bs => simp only [Option.bind_some, Option.bind_none, storeBytes, hdst]
          | some pd =>
              -- the byte that is stored is none of those still to be loaded
              have hframe : ∀ i < k, addr (((s + 1).toNat + i) % 2 ^ 32) ≠ some pd := by
                intro i hi hload
                rw [UInt32.toNat_add, Nat.mod_add_mod, Nat.add_assoc] at hload
                refine hapart (UInt32.toNat 1 + i) ?_ 0 (by omega) pd hload ?_
                · rw [UInt32.toNat_one]
                  omega
                · rw [Nat.add_zero, Nat.mod_eq_of_lt d.toNat_lt, hdst]
              rw [Nat.add_comm k 1] at hapart
              simp only [Option.bind_some]
              rw [ih (d + 1) (s + 1) _ (hapart.drop 1 (Nat.le_refl _)), loadBytes_update _ _ hframe]
              cases loadBytes addr mem (s + 1) k with
              | none => rfl
              | some bs =>
                  simp only [Option.bind_some, storeBytes, hdst]
                  congr 1
                  funext mem'
                  rw [← memcpy_mod, ← memcpy_mod addr (d.toNat + (k + 1)), UInt32.toNat_add,
                    UInt32.toNat_add, Nat.mod_add_mod, Nat.mod_add_mod, UInt32.toNat_one, Nat.add_assoc,
                    Nat.add_assoc, Nat.add_comm 1 k]

/-- Storing copies of the byte and filling the rest is filling all of it. -/
theorem memset_block (addr : Nat → Option Nat) (b : UInt8) (k n : Nat) (d : UInt32) (mem : Bytes) :
    memset addr b d.toNat (k + n) mem
      = (storeBytes addr d (List.replicate k b) mem).bind fun mem' =>
          memset addr b (d.toNat + k) n mem' := by
  induction k generalizing d mem with
  | zero => rw [Nat.zero_add]; rfl
  | succ k ih =>
      rw [Nat.succ_add, memset_succ, List.replicate_succ, storeBytes]
      cases addr d.toNat with
      | none => rfl
      | some p =>
          simp only [Option.bind_some]
          rw [ih (d + 1)]
          congr 1
          funext mem'
          rw [← memset_mod, ← memset_mod addr b (d.toNat + (k + 1)), UInt32.toNat_add, Nat.mod_add_mod,
            UInt32.toNat_one, Nat.add_assoc, Nat.add_comm 1 k]

end ByteLoops

/-! ## Copying -/

section Copying

variable {addr : UInt16 → Nat → Option Nat} {rest : List (Instr Label)} {c : Cpu} {r : Reg}

/-- One round of a byte loop of `memcpy` copies one byte, if what follows copies the others. -/
theorem copyByte_leaves (hr : r = .ecx ∨ r = .edx) {n : Nat} (hcount : (c.get r).toNat = n + 1)
    (hnext : ∀ c' : Cpu, c'.ds = c.ds → c'.edi = c.edi + 1 → c'.esi = c.esi + 1 →
      (c'.get r).toNat = n →
      Leaves memcpyCode addr rest c' (memcpy (addr c'.ds) c'.edi.toNat c'.esi.toNat n c'.mem)) :
    Leaves memcpyCode addr
      (.loadByte :: .storeByte :: .addImm 1 .edi :: .addImm 1 .esi :: .subImm 1 r :: rest) c
      (memcpy (addr c.ds) c.edi.toNat c.esi.toNat (n + 1) c.mem) := by
  rw [memcpy_succ]
  cases hsrc : addr c.ds c.esi.toNat with
  | none => exact Leaves.fault (by rw [step, hsrc]; rfl)
  | some ps =>
      refine Leaves.step (by rw [step, hsrc]; rfl) ?_
      cases hdst : addr c.ds c.edi.toNat with
      | none => exact Leaves.fault (by rw [step]; simp only [hdst]; rfl)
      | some pd =>
          refine Leaves.step (by rw [step]; simp only [hdst]; rfl) ?_
          refine Leaves.step rfl (Leaves.step rfl (Leaves.step rfl ?_))
          simp only [Option.bind_some]
          rw [toUInt8_loaded]
          rcases hr with rfl | rfl
          · exact hnext _ rfl rfl rfl (toNat_pred hcount)
          · exact hnext _ rfl rfl rfl (toNat_pred hcount)

/-- The tail loop copies as many bytes as `edx` says. -/
theorem memcpyBottom_leaves (k : Nat) (c : Cpu) (hk : c.edx.toNat = k) :
    Leaves memcpyCode addr memcpyBottom c
      (memcpy (addr c.ds) c.edi.toNat c.esi.toNat k c.mem) := by
  induction k generalizing c with
  | zero =>
      exact Leaves.step rfl (Leaves.loop_done hk (Leaves.step rfl (Leaves.nil _)))
  | succ k ih =>
      refine Leaves.step rfl (Leaves.loop_round hk ?_)
      exact copyByte_leaves (Or.inr rfl) hk fun c' _ _ _ hedx => Leaves.jmp (ih c' hedx)

/-- The repeated instruction copies four bytes for each count, and the tail loop what is left. -/
theorem memcpyRep_leaves (k : Nat) (c : Cpu) (hk : c.ecx.toNat = k) (hes : c.es = c.ds)
    (hdf : c.df = false) (hapart : Apart (addr c.ds) c.edi.toNat c.esi.toNat (4 * k)) :
    Leaves memcpyCode addr (.repMovs :: memcpyBottom) c
      (memcpy (addr c.ds) c.edi.toNat c.esi.toNat (4 * k + c.edx.toNat) c.mem) := by
  induction k generalizing c with
  | zero =>
      have hzero : c.ecx = 0 := UInt32.toNat_inj.1 hk
      rw [Nat.mul_zero, Nat.zero_add]
      exact Leaves.step (by rw [step, if_pos hzero]) (memcpyBottom_leaves _ c rfl)
  | succ k ih =>
      have hne := ne_zero_of_toNat hk
      rw [show 4 * (k + 1) = 4 + 4 * k by omega] at hapart
      rw [show 4 * (k + 1) + c.edx.toNat = 4 + (4 * k + c.edx.toNat) by omega,
        memcpy_block _ _ _ _ _ _ hapart.take]
      cases hdwords : (loadBytes (addr c.ds) c.mem c.esi 4).bind
          fun bs => storeBytes (addr c.ds) c.edi bs c.mem with
      | none =>
          refine Leaves.fault ?_
          rw [step, if_neg hne, hes, hdwords, Option.map_none]
      | some mem =>
          have hstride : stride c = 4 := by rw [stride, hdf, if_neg Bool.false_ne_true]
          refine Leaves.step (by rw [step, if_neg hne, hes, hdwords, Option.map_some]) ?_
          rw [hstride, Option.bind_some]
          have hrest := ih
            { c with mem := mem, esi := c.esi + 4, edi := c.edi + 4, ecx := c.ecx - 1, es := c.ds }
            (toNat_pred hk) rfl hdf (hapart.drop 4 (Nat.le_refl _))
          rw [memcpy_add] at hrest
          exact hrest

theorem memcpyAligned_leaves (c : Cpu)
    (hapart : Apart (addr c.ds) c.edi.toNat c.esi.toNat c.ecx.toNat) :
    Leaves memcpyCode addr memcpyAligned c
      (memcpy (addr c.ds) c.edi.toNat c.esi.toNat c.ecx.toNat c.mem) := by
  rw [toNat_dwords c.ecx] at hapart ⊢
  refine Leaves.step rfl (Leaves.step rfl (Leaves.step rfl (Leaves.step rfl (Leaves.step rfl
    (Leaves.step rfl (Leaves.step rfl ?_))))))
  exact memcpyRep_leaves _ _ rfl (toUInt16_loaded _ _) rfl hapart.take

/-- `memcpy` is the loop over single bytes. -/
theorem memcpyCode_leaves (k : Nat) (c : Cpu) (hk : c.ecx.toNat = k)
    (hapart : Apart (addr c.ds) c.edi.toNat c.esi.toNat k) :
    Leaves memcpyCode addr memcpyCode c
      (memcpy (addr c.ds) c.edi.toNat c.esi.toNat k c.mem) := by
  induction k generalizing c with
  | zero =>
      exact Leaves.step rfl (Leaves.loop_done hk (Leaves.step rfl (Leaves.nil _)))
  | succ k ih =>
      refine Leaves.step rfl (Leaves.loop_round hk (Leaves.step rfl (Leaves.jz ?_ ?_)))
      · intro _
        rw [← hk] at hapart ⊢
        exact memcpyAligned_leaves _ hapart
      · intro _
        refine copyByte_leaves (Or.inl rfl) hk fun c' hds hedi hesi hecx => Leaves.jmp (ih c' hecx ?_)
        rw [Nat.add_comm] at hapart
        rw [hds, hedi, hesi]
        exact hapart.drop 1 (Nat.le_refl _)

/-- `memcpy` leaves what the byte loop leaves, and nothing else. -/
theorem memcpyCode_leaves_iff {mem : Option Bytes}
    (hapart : Apart (addr c.ds) c.edi.toNat c.esi.toNat c.ecx.toNat) :
    Leaves memcpyCode addr memcpyCode c mem ↔
      mem = memcpy (addr c.ds) c.edi.toNat c.esi.toNat c.ecx.toNat c.mem := by
  have hleaves := memcpyCode_leaves c.ecx.toNat c rfl hapart
  constructor
  · intro h
    exact h.unique hleaves
  · rintro rfl
    exact hleaves

/-- The instructions copy a range to another one, both mapped one to one, as a page is copied when the
    terminal is switched. -/
theorem memcpyCode_range {pd ps : Nat}
    (hdst : ∀ j < c.ecx.toNat, addr c.ds ((c.edi.toNat + j) % 2 ^ 32) = some (pd + j))
    (hsrc : ∀ j < c.ecx.toNat, addr c.ds ((c.esi.toNat + j) % 2 ^ 32) = some (ps + j))
    (hapart : pd + c.ecx.toNat ≤ ps ∨ ps + c.ecx.toNat ≤ pd) :
    Leaves memcpyCode addr memcpyCode c (some (copied pd ps c.ecx.toNat c.mem)) := by
  rw [← memcpy_range c.ecx.toNat hdst hsrc hapart]
  refine memcpyCode_leaves _ c rfl ?_
  intro i hi j hj p hload hstore
  rw [hsrc i hi] at hload
  rw [hdst j hj] at hstore
  have hsame := (Option.some.inj hload).trans (Option.some.inj hstore).symm
  omega

variable {lay : Layout} {pg : Paging} {t : Terminal}

theorem toNat_screenPage (t : Terminal) : (UInt32.ofNat (screenPage t)).toNat = screenPage t := by
  have ht : t.val < 3 := t.isLt
  have hsize : UInt32.size = 2 ^ 32 := rfl
  unfold screenPage virtVidTerm1 fourKiB
  exact UInt32.toNat_ofNat_of_lt (by omega)

/-- The instructions save the screen when the terminal is switched. -/
theorem memcpyCode_save (h : ScreenTables lay pg) (hb : BackedUp pg t) (c : Cpu) :
    Leaves memcpyCode (fun _ => kernelAddr lay pg) memcpyCode
      (memcpyEntry c (UInt32.ofNat (screenPage t)) (UInt32.ofNat videoAddr) (UInt32.ofNat fourKiB))
      (memcpy (kernelAddr lay pg) (screenPage t) videoAddr fourKiB c.mem) := by
  rw [hb.memcpy_save h]
  refine memcpyCode_range ?_ h.video_range (Or.inr (video_below_backup t))
  change ∀ j < fourKiB, kernelAddr lay pg (((UInt32.ofNat (screenPage t)).toNat + j) % 2 ^ 32) = _
  rw [toNat_screenPage]
  exact hb.page_range h

/-- The instructions fetch the screen of the new terminal. -/
theorem memcpyCode_fetch (h : ScreenTables lay pg) (hb : BackedUp pg t) (c : Cpu) :
    Leaves memcpyCode (fun _ => kernelAddr lay pg) memcpyCode
      (memcpyEntry c (UInt32.ofNat videoAddr) (UInt32.ofNat (screenPage t)) (UInt32.ofNat fourKiB))
      (memcpy (kernelAddr lay pg) videoAddr (screenPage t) fourKiB c.mem) := by
  rw [hb.memcpy_fetch h]
  refine memcpyCode_range h.video_range ?_ (Or.inl (video_below_backup t))
  change ∀ j < fourKiB, kernelAddr lay pg (((UInt32.ofNat (screenPage t)).toNat + j) % 2 ^ 32) = _
  rw [toNat_screenPage]
  exact hb.page_range h

end Copying

/-! ## Filling -/

section Filling

variable {addr : UInt16 → Nat → Option Nat} {rest : List (Instr Label)} {c : Cpu} {r : Reg}

/-- One round of a byte loop of `memset` stores one byte, if what follows stores the others. -/
theorem fillByte_leaves (hr : r = .ecx ∨ r = .edx) {n : Nat} (hcount : (c.get r).toNat = n + 1)
    (hnext : ∀ c' : Cpu, c'.ds = c.ds → c'.edi = c.edi + 1 → c'.eax = c.eax →
      (c'.get r).toNat = n →
      Leaves memsetCode addr rest c' (memset (addr c'.ds) c.eax.toUInt8 c'.edi.toNat n c'.mem)) :
    Leaves memsetCode addr (.storeByte :: .addImm 1 .edi :: .subImm 1 r :: rest) c
      (memset (addr c.ds) c.eax.toUInt8 c.edi.toNat (n + 1) c.mem) := by
  rw [memset_succ]
  cases hdst : addr c.ds c.edi.toNat with
  | none => exact Leaves.fault (by rw [step, hdst]; rfl)
  | some p =>
      refine Leaves.step (by rw [step, hdst]; rfl) (Leaves.step rfl (Leaves.step rfl ?_))
      rcases hr with rfl | rfl
      · exact hnext _ rfl rfl rfl (toNat_pred hcount)
      · exact hnext _ rfl rfl rfl (toNat_pred hcount)

theorem memsetBottom_leaves (k : Nat) (c : Cpu) (hk : c.edx.toNat = k) :
    Leaves memsetCode addr memsetBottom c
      (memset (addr c.ds) c.eax.toUInt8 c.edi.toNat k c.mem) := by
  induction k generalizing c with
  | zero =>
      exact Leaves.step rfl (Leaves.loop_done hk (Leaves.step rfl (Leaves.nil _)))
  | succ k ih =>
      refine Leaves.step rfl (Leaves.loop_round hk ?_)
      refine fillByte_leaves (Or.inr rfl) hk fun c' _ _ heax hedx => Leaves.jmp ?_
      have hrest := ih c' hedx
      rwa [heax] at hrest

theorem memsetRep_leaves (k : Nat) (c : Cpu) (hk : c.ecx.toNat = k) (hes : c.es = c.ds)
    (hdf : c.df = false) (hfill : dwordBytes c.eax = List.replicate 4 c.eax.toUInt8) :
    Leaves memsetCode addr (.repStos :: memsetBottom) c
      (memset (addr c.ds) c.eax.toUInt8 c.edi.toNat (4 * k + c.edx.toNat) c.mem) := by
  induction k generalizing c with
  | zero =>
      have hzero : c.ecx = 0 := UInt32.toNat_inj.1 hk
      rw [Nat.mul_zero, Nat.zero_add]
      exact Leaves.step (by rw [step, if_pos hzero]) (memsetBottom_leaves _ c rfl)
  | succ k ih =>
      have hne := ne_zero_of_toNat hk
      rw [show 4 * (k + 1) + c.edx.toNat = 4 + (4 * k + c.edx.toNat) by omega, memset_block, ← hfill]
      cases hdwords : storeBytes (addr c.ds) c.edi (dwordBytes c.eax) c.mem with
      | none =>
          refine Leaves.fault ?_
          rw [step, if_neg hne, hes, hdwords, Option.map_none]
      | some mem =>
          have hstride : stride c = 4 := by rw [stride, hdf, if_neg Bool.false_ne_true]
          refine Leaves.step (by rw [step, if_neg hne, hes, hdwords, Option.map_some]) ?_
          rw [hstride, Option.bind_some]
          have hrest := ih { c with mem := mem, edi := c.edi + 4, ecx := c.ecx - 1, es := c.ds }
            (toNat_pred hk) rfl hdf hfill
          rw [memset_add] at hrest
          exact hrest

theorem memsetAligned_leaves (c : Cpu) (hfill : dwordBytes c.eax = List.replicate 4 c.eax.toUInt8) :
    Leaves memsetCode addr memsetAligned c
      (memset (addr c.ds) c.eax.toUInt8 c.edi.toNat c.ecx.toNat c.mem) := by
  rw [toNat_dwords c.ecx]
  refine Leaves.step rfl (Leaves.step rfl (Leaves.step rfl (Leaves.step rfl (Leaves.step rfl
    (Leaves.step rfl (Leaves.step rfl ?_))))))
  exact memsetRep_leaves _ _ rfl (toUInt16_loaded _ _) rfl hfill

/-- `memset` is the loop over single bytes. -/
theorem memsetCode_leaves (k : Nat) (c : Cpu) (hk : c.ecx.toNat = k)
    (hfill : dwordBytes c.eax = List.replicate 4 c.eax.toUInt8) :
    Leaves memsetCode addr memsetCode c
      (memset (addr c.ds) c.eax.toUInt8 c.edi.toNat k c.mem) := by
  induction k generalizing c with
  | zero =>
      exact Leaves.step rfl (Leaves.loop_done hk (Leaves.step rfl (Leaves.nil _)))
  | succ k ih =>
      refine Leaves.step rfl (Leaves.loop_round hk (Leaves.step rfl (Leaves.jz ?_ ?_)))
      · intro _
        rw [← hk]
        exact memsetAligned_leaves _ hfill
      · intro _
        refine fillByte_leaves (Or.inl rfl) hk fun c' _ _ heax hecx => Leaves.jmp ?_
        have hrest := ih c' hecx
        rw [heax] at hrest
        exact hrest hfill

/-- `memset` leaves what the byte loop leaves, and nothing else. -/
theorem memsetCode_leaves_iff {mem : Option Bytes}
    (hfill : dwordBytes c.eax = List.replicate 4 c.eax.toUInt8) :
    Leaves memsetCode addr memsetCode c mem ↔
      mem = memset (addr c.ds) c.eax.toUInt8 c.edi.toNat c.ecx.toNat c.mem := by
  have hleaves := @memsetCode_leaves addr c.ecx.toNat c rfl hfill
  constructor
  · intro h
    exact h.unique hleaves
  · rintro rfl
    exact hleaves

/-- The register that `memset` is entered with holds four copies of the byte. -/
theorem memsetEntry_fill (c : Cpu) (s value n : UInt32) :
    (memsetEntry c s value n).eax.toUInt8 = value.toUInt8 ∧
      dwordBytes (memsetEntry c s value n).eax = List.replicate 4 value.toUInt8 := by
  have hfill : dwordBytes (memsetEntry c s value n).eax = List.replicate 4 value.toUInt8 := by
    simp only [memsetEntry, and_lowByte]
    exact dwordBytes_fill _
  exact ⟨(List.cons.inj hfill).1, hfill⟩

end Filling

/-! ## In a flat memory -/

section Flat

variable {addr : Nat → Option Nat} {b : UInt8} {mem : Bytes}

/-- In a flat memory the byte loop does not fault, and changes no byte outside its destination. -/
theorem memcpy_flat (hflat : ∀ a, addr a = some a) (src n : Nat) {dst : Nat}
    (hrange : dst + n ≤ 2 ^ 32) : ∃ mem', memcpy addr dst src n mem = some mem' ∧
      ∀ a, ¬(dst ≤ a ∧ a < dst + n) → mem' a = mem a := by
  induction n generalizing dst src mem with
  | zero => exact ⟨mem, rfl, fun _ _ => rfl⟩
  | succ n ih =>
      rw [memcpy, hflat, hflat, Nat.mod_eq_of_lt (by omega : dst < 2 ^ 32)]
      obtain ⟨mem', hcopy, hframe⟩ := @ih (Function.update mem dst (mem (src % 2 ^ 32))) (src + 1)
        (dst + 1) (by omega)
      refine ⟨mem', hcopy, ?_⟩
      intro a ha
      rw [hframe a (by omega), Function.update_of_ne (by omega)]

theorem memset_flat (hflat : ∀ a, addr a = some a) (n : Nat) {dst : Nat}
    (hrange : dst + n ≤ 2 ^ 32) : ∃ mem', memset addr b dst n mem = some mem' ∧
      ∀ a, ¬(dst ≤ a ∧ a < dst + n) → mem' a = mem a := by
  induction n generalizing dst mem with
  | zero => exact ⟨mem, rfl, fun _ _ => rfl⟩
  | succ n ih =>
      rw [memset, hflat, Nat.mod_eq_of_lt (by omega : dst < 2 ^ 32)]
      obtain ⟨mem', hfill, hframe⟩ := @ih (Function.update mem dst b) (dst + 1) (by omega)
      refine ⟨mem', hfill, ?_⟩
      intro a ha
      rw [hframe a (by omega), Function.update_of_ne (by omega)]

end Flat

/-- In a flat memory `memcpy` and `memset` end, without a fault, with the memory that as many copies and
    stores of single bytes leave, and outside the destination nothing has changed. -/
theorem copy_fill_bytewise (addr : UInt16 → Nat → Option Nat) (c : Cpu) (dest src n value : UInt32)
    (hflat : ∀ a, addr c.ds a = some a) (hrange : dest.toNat + n.toNat ≤ 2 ^ 32) :
    ((∀ i < n.toNat, ∀ j < n.toNat, (src.toNat + i) % 2 ^ 32 ≠ dest.toNat + j) →
      ∃ mem, Leaves memcpyCode addr memcpyCode (memcpyEntry c dest src n) (some mem) ∧
        memcpy (addr c.ds) dest.toNat src.toNat n.toNat c.mem = some mem ∧
        ∀ a, ¬(dest.toNat ≤ a ∧ a < dest.toNat + n.toNat) → mem a = c.mem a) ∧
    ∃ mem, Leaves memsetCode addr memsetCode (memsetEntry c dest value n) (some mem) ∧
      memset (addr c.ds) (value &&& 0xFF).toUInt8 dest.toNat n.toNat c.mem = some mem ∧
      ∀ a, ¬(dest.toNat ≤ a ∧ a < dest.toNat + n.toNat) → mem a = c.mem a := by
  constructor
  · intro hapart
    obtain ⟨mem, hcopy, hframe⟩ := memcpy_flat hflat src.toNat n.toNat hrange
    refine ⟨mem, ?_, hcopy, hframe⟩
    refine (memcpyCode_leaves_iff ?_).2 hcopy.symm
    intro i hi j hj p hload hstore
    change i < n.toNat at hi
    change j < n.toNat at hj
    rw [show (memcpyEntry c dest src n).ds = c.ds from rfl, hflat] at hload hstore
    have hsame := (Option.some.inj hload).trans (Option.some.inj hstore).symm
    rw [show (memcpyEntry c dest src n).edi = dest from rfl,
      Nat.mod_eq_of_lt (by omega : dest.toNat + j < 2 ^ 32)] at hsame
    exact hapart i hi j hj hsame
  · obtain ⟨hbyte, hfill⟩ := memsetEntry_fill c dest value n
    obtain ⟨mem, hset, hframe⟩ := @memset_flat _ value.toUInt8 c.mem hflat n.toNat _ hrange
    rw [and_lowByte, UInt8.toUInt8_toUInt32]
    refine ⟨mem, ?_, hset, hframe⟩
    rw [← hbyte] at hset hfill
    exact (memsetCode_leaves_iff hfill).2 hset.symm

/-- Eleven bytes to an address that is not aligned, and as many filled with the lowest byte of a larger
    number. -/
theorem copy_fill_bytewise_unaligned :
    let c : Cpu := ⟨0, 0, 0, 0, 0, 0x18, 0x18, false, true, fun a => a.toUInt8⟩
    (∃ mem, Leaves memcpyCode (fun _ => some) memcpyCode (memcpyEntry c 5 20 11) (some mem) ∧
      memcpy some 5 20 11 c.mem = some mem ∧ ∀ a, ¬(5 ≤ a ∧ a < 16) → mem a = c.mem a) ∧
    ∃ mem, Leaves memsetCode (fun _ => some) memsetCode (memsetEntry c 5 0x1FF 11) (some mem) ∧
      memset some 0xFF 5 11 c.mem = some mem ∧ ∀ a, ¬(5 ≤ a ∧ a < 16) → mem a = c.mem a := by
  intro c
  have h := copy_fill_bytewise (fun _ => some) c 5 20 11 0x1FF (fun _ => rfl) (by decide)
  refine ⟨h.1 ?_, h.2⟩
  intro i hi j hj
  change i < 11 at hi
  change j < 11 at hj
  change (20 + i) % 2 ^ 32 ≠ 5 + j
  omega

end BaseOs
