import BaseOs.Lib.Moves
import BaseOs.Paging.Copying

set_option autoImplicit false

/-! # Moving and filling wide (`lib.c`)

`memmove`, `memset_word` and `memset_dword`, executed instruction by instruction. `memmove` compares the
pointers and moves from the end backwards if the source is below the destination; so it moves correctly
however the ranges overlap, and leaves the direction flag set then. The other two store words and dwords,
`n` of each. -/

namespace BaseOs

open Asm

/-! ## The instructions -/

inductive MoveLabel
  | go
  deriving DecidableEq

/-- `memmove`, with the destination in `edi`, the source in `esi` and the count in `ecx`. -/
def memmoveCode : List (StringInstr MoveLabel) :=
  [.movDsDx, .movDxEs, .cld, .cmp .edi .esi, .jae .go, .lea (-1) .esi .ecx, .lea (-1) .edi .ecx, .std,
    .label .go, .repMovsb]

/-- Filling with units of so many bytes: the destination is in `edi`, the value in `eax`, the count in
    `ecx`. -/
def memsetWideCode (width : Nat) : List (StringInstr MoveLabel) := [.movDsDx, .movDxEs, .cld, .repStos width]

/-- `memset_word`. -/
def memsetWordCode : List (StringInstr MoveLabel) := memsetWideCode 2

/-- `memset_dword`. -/
def memsetDwordCode : List (StringInstr MoveLabel) := memsetWideCode 4

/-- The registers as `memmove(dest, src, n)` loads them. -/
def memmoveEntry (c : CarryCpu) (dest src n : UInt32) : CarryCpu :=
  { c with edi := dest, esi := src, ecx := n }

/-- The registers as `memset_word(s, c, n)` and `memset_dword(s, c, n)` load them. -/
def memsetWideEntry (c : CarryCpu) (s value n : UInt32) : CarryCpu :=
  { c with eax := value, edi := s, ecx := n }

/-- The addresses of `n` bytes. -/
def byteRange (a n : Nat) : Set Nat := {x | a ≤ x ∧ x < a + n}

/-- A part of the address space is mapped, each address to a place of its own. -/
structure MappedApart (addr : Nat → Option Nat) (addresses : Set Nat) (φ : Nat → Nat) : Prop where
  mapped : ∀ a ∈ addresses, addr a = some (φ a)
  apart : Set.InjOn φ addresses

variable {addr : UInt16 → Nat → Option Nat} {c : CarryCpu} {dest src n s value : UInt32} {φ : Nat → Nat}

/-! ## The way to the repeated instruction -/

/-- The registers at the repeated move: from the start of the ranges upwards, or from their end
    downwards. -/
structure AtMove (c c' : CarryCpu) (dest src n : UInt32) : Prop where
  mem : c'.mem = c.mem
  ds : c'.ds = c.ds
  es : c'.es = c.ds
  ecx : c'.ecx = n
  df : c'.df = decide (src < dest)
  esi : c'.esi = if src < dest then src + n + -1 else src
  edi : c'.edi = if src < dest then dest + n + -1 else dest

theorem memmove_start (addr : UInt16 → Nat → Option Nat) (c : CarryCpu) (dest src n : UInt32) :
    ∃ c', forward addr none memmoveCode (memmoveEntry c dest src n) = repMovsb addr n.toNat c' ∧
      AtMove c c' dest src n := by
  -- up to the comparison
  obtain ⟨c₁, hhead, hcf, hdf, hmem, hds, hes, hesi, hedi, hecx⟩ : ∃ c₁ : CarryCpu,
      forward addr none memmoveCode (memmoveEntry c dest src n)
        = forward addr none (memmoveCode.drop 4) c₁ ∧
      c₁.cf = decide (src < dest) ∧ c₁.df = false ∧ c₁.mem = c.mem ∧ c₁.ds = c.ds ∧ c₁.es = c.ds ∧
      c₁.esi = src ∧ c₁.edi = dest ∧ c₁.ecx = n := by
    refine ⟨_, (forward_next rfl).trans ((forward_next rfl).trans ((forward_next rfl).trans
      (forward_next rfl))), ?_⟩
    exact ⟨rfl, rfl, rfl, rfl, toUInt16_loaded _ _, rfl, rfl, rfl⟩
  by_cases hlt : src < dest
  · -- backwards
    rw [decide_eq_true hlt] at hcf
    obtain ⟨last, hlast⟩ : ∃ v, c₁.get .esi + c₁.get .ecx + -1 = v := ⟨_, rfl⟩
    obtain ⟨last', hlast'⟩ : ∃ v, c₁.get .edi + c₁.get .ecx + -1 = v := ⟨_, rfl⟩
    obtain ⟨c₂, htail, hmem₂, hds₂, hes₂, hecx₂, hdf₂, hesi₂, hedi₂⟩ : ∃ c₂ : CarryCpu,
        forward addr none (memmoveCode.drop 5) c₁ = forward addr none (memmoveCode.drop 9) c₂ ∧
        c₂.mem = c₁.mem ∧ c₂.ds = c₁.ds ∧ c₂.es = c₁.es ∧ c₂.ecx = c₁.ecx ∧ c₂.df = true ∧
        c₂.esi = last ∧ c₂.edi = last' := by
      have hedi' : (c₁.set last .esi).get .edi = c₁.get .edi := rfl
      have hecx' : (c₁.set last .esi).get .ecx = c₁.get .ecx := rfl
      refine ⟨_, (forward_lea hlast).trans ((forward_lea (by rw [hedi', hecx', hlast'])).trans
        (forward_std.trans (forward_label _))), ?_⟩
      exact ⟨rfl, rfl, rfl, rfl, rfl, rfl, rfl⟩
    rw [Cpu.get, Cpu.get, hesi, hecx] at hlast
    rw [Cpu.get, Cpu.get, hedi, hecx] at hlast'
    refine ⟨c₂, ?_, ⟨hmem₂.trans hmem, hds₂.trans hds, hes₂.trans hes, hecx₂.trans hecx, ?_, ?_, ?_⟩⟩
    · have hback : forward addr none (memmoveCode.drop 4) c₁ = forward addr none (memmoveCode.drop 5) c₁ :=
        forward_jae_not _ hcf
      rw [hhead, hback, htail, ← hecx, ← hecx₂]
      exact forward_repMovsb c₂
    · rw [hdf₂, decide_eq_true hlt]
    · rw [if_pos hlt, hesi₂, hlast]
    · rw [if_pos hlt, hedi₂, hlast']
  · rw [decide_eq_false hlt] at hcf
    refine ⟨c₁, ?_, ⟨hmem, hds, hes, hecx, by rw [hdf, decide_eq_false hlt], by rw [if_neg hlt, hesi],
      by rw [if_neg hlt, hedi]⟩⟩
    have hskip : forward addr none (memmoveCode.drop 4) c₁ = forward addr none (memmoveCode.drop 9) c₁ :=
      (forward_jae _ hcf).trans rfl
    rw [hhead, hskip, ← hecx]
    exact forward_repMovsb c₁

/-! ## The ranges -/

theorem reached_forward {a n : UInt32} {k : Nat} (hn : a.toNat + n.toNat ≤ 2 ^ 32) (hk : k < n.toNat) :
    (reached a false 1 k).toNat = a.toNat + k := by
  have hpace : pace false 1 = 1 := rfl
  have hsize : UInt32.size = 2 ^ 32 := rfl
  rw [reached, hpace, UInt32.mul_one, UInt32.toNat_add, UInt32.toNat_ofNat_of_lt' (by omega),
    Nat.mod_eq_of_lt (by omega)]

theorem reached_backward {a n : UInt32} {k : Nat} (hn : a.toNat + n.toNat ≤ 2 ^ 32) (hk : k < n.toNat) :
    (reached (a + n + -1) true 1 k).toNat = a.toNat + (n.toNat - 1 - k) := by
  have hpace : pace true 1 = -1 := rfl
  have hsize : UInt32.size = 2 ^ 32 := rfl
  have hsplit : n = UInt32.ofNat (n.toNat - 1 - k) + UInt32.ofNat k + 1 := by
    have hone : (1 : UInt32) = UInt32.ofNat 1 := rfl
    rw [hone, ← UInt32.ofNat_add, ← UInt32.ofNat_add, show n.toNat - 1 - k + k + 1 = n.toNat by omega,
      UInt32.ofNat_toNat]
  have hcancel : ∀ x y : UInt32, a + (x + y + 1) + -1 + y * -1 = a + x := by grind
  rw [reached, hpace]
  nth_rewrite 1 [hsplit]
  rw [hcancel, UInt32.toNat_add, UInt32.toNat_ofNat_of_lt' (by omega), Nat.mod_eq_of_lt (by omega)]

/-- The offset that round `k` moves. -/
def offsetAt (df : Bool) (n k : Nat) : Nat := if df then n - 1 - k else k

theorem offsetAt_lt (df : Bool) {n k : Nat} (hk : k < n) : offsetAt df n k < n := by
  unfold offsetAt
  split_ifs <;> omega

/-- Every offset has its round. -/
theorem exists_offsetAt (df : Bool) {n k : Nat} (hk : k < n) : ∃ j < n, offsetAt df n j = k := by
  cases df with
  | true => exact ⟨n - 1 - k, by omega, by rw [offsetAt, if_pos rfl]; omega⟩
  | false => exact ⟨k, hk, rfl⟩

theorem reached_range {a b n : UInt32} {k : Nat} {df : Bool} (hb : b = if df then a + n + -1 else a)
    (hn : a.toNat + n.toNat ≤ 2 ^ 32) (hk : k < n.toNat) :
    (reached b df 1 k).toNat = a.toNat + offsetAt df n.toNat k := by
  subst hb
  cases df with
  | true => exact reached_backward hn hk
  | false => exact reached_forward hn hk

/-- The moves are in the right order for the ranges. -/
theorem orderly_rounds (hmap : Set.InjOn φ (byteRange src.toNat n.toNat ∪ byteRange dest.toNat n.toNat))
    {s' d' : UInt32} {df : Bool} (hdf : df = decide (src < dest)) (hs : s' = if df then src + n + -1 else src)
    (hd : d' = if df then dest + n + -1 else dest) (hsrc : src.toNat + n.toNat ≤ 2 ^ 32)
    (hdest : dest.toNat + n.toNat ≤ 2 ^ 32) : Orderly (rounds φ s' d' df n.toNat) := by
  unfold Orderly rounds
  rw [List.pairwise_map]
  refine List.pairwise_lt_range.imp_of_mem fun {k k'} hk hk' hlt => ?_
  rw [List.mem_range] at hk hk'
  have hin : ∀ {a : UInt32} {j : Nat}, a = src ∨ a = dest → j < n.toNat →
      a.toNat + j ∈ byteRange src.toNat n.toNat ∪ byteRange dest.toNat n.toNat := by
    rintro a j (rfl | rfl) hj
    · exact Or.inl ⟨Nat.le_add_right _ _, Nat.add_lt_add_left hj _⟩
    · exact Or.inr ⟨Nat.le_add_right _ _, Nat.add_lt_add_left hj _⟩
  simp only [reached_range hs hsrc hk', reached_range hd hdest hk, reached_range hd hdest hk']
  have ho := offsetAt_lt df hk
  have ho' := offsetAt_lt df hk'
  constructor
  · intro heq
    have hsame := hmap (hin (Or.inl rfl) ho') (hin (Or.inr rfl) ho) heq
    rw [hdf] at hsame ho ho'
    by_cases hbelow : src < dest
    · rw [decide_eq_true hbelow, offsetAt, offsetAt, if_pos rfl, if_pos rfl] at hsame
      rw [UInt32.lt_iff_toNat_lt] at hbelow
      omega
    · rw [decide_eq_false hbelow, offsetAt, offsetAt, if_neg Bool.false_ne_true, if_neg Bool.false_ne_true] at hsame
      rw [UInt32.lt_iff_toNat_lt] at hbelow
      omega
  · intro heq
    have hsame := hmap (hin (Or.inr rfl) ho') (hin (Or.inr rfl) ho) heq
    unfold offsetAt at hsame
    split_ifs at hsame <;> omega

/-! ## What they leave -/

/-- `memmove` moves the bytes of the source as they were, however the two ranges overlap, and changes
    nothing else. It leaves the direction flag set if the source is below the destination. -/
theorem memmove_moves (addr : UInt16 → Nat → Option Nat) (c : CarryCpu) (dest src n : UInt32) (φ : Nat → Nat)
    (hsrc : src.toNat + n.toNat ≤ 2 ^ 32) (hdest : dest.toNat + n.toNat ≤ 2 ^ 32)
    (hmap : MappedApart (addr c.ds) (byteRange src.toNat n.toNat ∪ byteRange dest.toNat n.toNat) φ) :
    ∃ c', forward addr none memmoveCode (memmoveEntry c dest src n) = some c' ∧
      (∀ k < n.toNat, c'.mem (φ (dest.toNat + k)) = c.mem (φ (src.toNat + k))) ∧
      (∀ a, (∀ k < n.toNat, a ≠ φ (dest.toNat + k)) → c'.mem a = c.mem a) ∧
      c'.df = decide (src < dest) := by
  obtain ⟨c₁, hstart, hat⟩ := memmove_start addr c dest src n
  have hesi : c₁.esi = if c₁.df then src + n + -1 else src := by
    rw [hat.esi, hat.df]
    simp only [decide_eq_true_eq]
  have hedi : c₁.edi = if c₁.df then dest + n + -1 else dest := by
    rw [hat.edi, hat.df]
    simp only [decide_eq_true_eq]
  have hsrcs : ∀ k < n.toNat, (reached c₁.esi c₁.df 1 k).toNat = src.toNat + offsetAt c₁.df n.toNat k :=
    fun k hk => reached_range hesi hsrc hk
  have hdests : ∀ k < n.toNat, (reached c₁.edi c₁.df 1 k).toNat = dest.toNat + offsetAt c₁.df n.toNat k :=
    fun k hk => reached_range hedi hdest hk
  obtain ⟨c', hrun, hmem, hdf⟩ := @repMovsb_eq addr c₁ n.toNat φ (hat.es.trans hat.ds.symm)
    (fun k hk => by
      rw [hat.ds, hsrcs k hk]
      exact hmap.mapped _ (Or.inl ⟨Nat.le_add_right _ _, Nat.add_lt_add_left (offsetAt_lt _ hk) _⟩))
    (fun k hk => by
      rw [hat.ds, hdests k hk]
      exact hmap.mapped _ (Or.inr ⟨Nat.le_add_right _ _, Nat.add_lt_add_left (offsetAt_lt _ hk) _⟩))
  -- no byte of the source is overwritten before its round
  have horder := orderly_rounds hmap.apart hat.df hesi hedi hsrc hdest
  rw [hat.mem] at hmem
  refine ⟨c', hstart.trans hrun, fun k hk => ?_, fun a ha => ?_, hdf.trans hat.df⟩
  · obtain ⟨j, hj, hoffset⟩ := exists_offsetAt c₁.df hk
    have hmoved := @moveAll_moved _ _ c.mem _ horder (List.mem_map.2 ⟨j, List.mem_range.2 hj, rfl⟩)
    simp only [hsrcs j hj, hdests j hj, hoffset] at hmoved
    rw [hmem, hmoved]
  · rw [hmem]
    refine moveAll_frame fun m hm => ?_
    obtain ⟨j, hj, rfl⟩ := List.mem_map.1 hm
    rw [List.mem_range] at hj
    simp only [hdests j hj]
    exact (ha _ (offsetAt_lt _ hj)).symm

/-- Five bytes moved up by two places. -/
theorem memmove_moves_overlap :
    let c : CarryCpu := ⟨⟨0, 0, 0, 0, 0, 0x18, 0, false, false, fun a => a.toUInt8⟩, false⟩
    ∃ c', forward (fun _ => some) none memmoveCode (memmoveEntry c 12 10 5) = some c' ∧
      (∀ k < 5, c'.mem (12 + k) = (10 + k).toUInt8) ∧
      (∀ a, (∀ k < 5, a ≠ 12 + k) → c'.mem a = a.toUInt8) ∧ c'.df = true :=
  memmove_moves (fun _ => some) _ 12 10 5 id (by decide) (by decide) ⟨fun _ _ => rfl, Set.injOn_id _⟩

/-! ## Filling -/

theorem memsetWide_start (addr : UInt16 → Nat → Option Nat) (c : CarryCpu) (width : Nat) (s value n : UInt32) :
    ∃ c', forward addr none (memsetWideCode width) (memsetWideEntry c s value n) = repStos addr width n.toNat c' ∧
      c'.mem = c.mem ∧ c'.ds = c.ds ∧ c'.es = c.ds ∧ c'.df = false ∧ c'.edi = s ∧ c'.eax = value := by
  refine ⟨_, (forward_next rfl).trans ((forward_next rfl).trans ((forward_next rfl).trans
    (forward_repStos width _))), ?_⟩
  exact ⟨rfl, rfl, toUInt16_loaded _ _, rfl, rfl, rfl⟩

/-- `n` words or dwords are filled in, byte by byte the value, and nothing else is changed. -/
theorem memsetWide_fills {width : Nat} (hwidth : width ≤ 4)
    (hrange : s.toNat + width * n.toNat ≤ 2 ^ 32)
    (hmap : MappedApart (addr c.ds) (byteRange s.toNat (width * n.toNat)) φ) :
    ∃ c', forward addr none (memsetWideCode width) (memsetWideEntry c s value n) = some c' ∧
      (∀ k < width * n.toNat, c'.mem (φ (s.toNat + k)) = (dwordBytes value).getD (k % width) 0) ∧
      ∀ a, (∀ k < width * n.toNat, a ≠ φ (s.toNat + k)) → c'.mem a = c.mem a := by
  obtain ⟨c₁, hstart, hmem, hds, hes, hdf, hedi, heax⟩ := memsetWide_start addr c width s value n
  have hsize : UInt32.size = 2 ^ 32 := rfl
  have hlength : ((dwordBytes c₁.eax).take width).length = width := by
    rw [List.length_take, dwordBytes]
    exact Nat.min_eq_left hwidth
  have haddress : ∀ k < width * n.toNat, (c₁.edi + UInt32.ofNat k).toNat = s.toNat + k := by
    intro k hk
    rw [hedi, UInt32.toNat_add, UInt32.toNat_ofNat_of_lt' (by omega), Nat.mod_eq_of_lt (by omega)]
  obtain ⟨c', hrun, hmem'⟩ := @repStos_eq addr c₁ n.toNat width φ (hes.trans hds.symm) hdf _ rfl hlength
    fun k hk => by
      rw [hds, haddress k hk]
      exact hmap.mapped _ ⟨Nat.le_add_right _ _, Nat.add_lt_add_left hk _⟩
  rw [hmem] at hmem'
  refine ⟨c', hstart.trans hrun, fun k hk => ?_, fun a ha => ?_⟩
  · -- the stores go to different places
    have hapart : (byteStores φ c₁.edi ((dwordBytes c₁.eax).take width) (width * n.toNat)).Pairwise
        fun t t' => t'.pos ≠ t.pos := by
      unfold byteStores
      rw [List.pairwise_map]
      refine List.pairwise_lt_range.imp_of_mem fun {j j'} hj hj' hlt heq => ?_
      rw [List.mem_range] at hj hj'
      simp only [haddress j hj, haddress j' hj'] at heq
      have hsame := hmap.apart ⟨Nat.le_add_right _ _, Nat.add_lt_add_left hj' _⟩
        ⟨Nat.le_add_right _ _, Nat.add_lt_add_left hj _⟩ heq
      omega
    have hpos : 0 < width := by
      rcases Nat.eq_zero_or_pos width with rfl | hpos
      · rw [Nat.zero_mul] at hk
        exact absurd hk (Nat.not_lt_zero k)
      · exact hpos
    have hstored := @Stores.apply_stored _ _ _ c.mem hapart
      (List.mem_map.2 ⟨k, List.mem_range.2 hk, rfl⟩)
    rw [heax] at hlength
    simp only [haddress k hk, heax, hlength] at hstored
    have hbyte : ((dwordBytes value).take width).getD (k % width) 0 = (dwordBytes value).getD (k % width) 0 := by
      rw [List.getD_eq_getElem?_getD, List.getD_eq_getElem?_getD, List.getElem?_take_of_lt (Nat.mod_lt k hpos)]
    rw [hmem', ← hbyte, ← heax]
    simp only [heax]
    exact hstored
  · rw [hmem']
    refine Stores.apply_frame fun t ht => ?_
    obtain ⟨j, hj, rfl⟩ := List.mem_map.1 ht
    rw [List.mem_range] at hj
    simp only [haddress j hj]
    exact (ha j hj).symm

/-- Three words, and then three dwords. -/
theorem memsetWide_fills_three :
    let c : CarryCpu := ⟨⟨0, 0, 0, 0, 0, 0x18, 0, false, true, fun a => a.toUInt8⟩, false⟩
    (∃ c', forward (fun _ => some) none memsetWordCode (memsetWideEntry c 5 0x0720 3) = some c' ∧
      (∀ k < 6, c'.mem (5 + k) = (dwordBytes 0x0720).getD (k % 2) 0) ∧
      ∀ a, (∀ k < 6, a ≠ 5 + k) → c'.mem a = a.toUInt8) ∧
    ∃ c', forward (fun _ => some) none memsetDwordCode (memsetWideEntry c 5 0x01020304 3) = some c' ∧
      (∀ k < 12, c'.mem (5 + k) = (dwordBytes 0x01020304).getD (k % 4) 0) ∧
      ∀ a, (∀ k < 12, a ≠ 5 + k) → c'.mem a = a.toUInt8 :=
  ⟨@memsetWide_fills (fun _ => some) _ 3 5 0x0720 id 2 (by decide) (by decide) ⟨fun _ _ => rfl, Set.injOn_id _⟩,
    @memsetWide_fills (fun _ => some) _ 3 5 0x01020304 id 4 (by decide) (by decide) ⟨fun _ _ => rfl, Set.injOn_id _⟩⟩

end BaseOs
