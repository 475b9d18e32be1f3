import BaseOs.Console.Cursors
import BaseOs.Console.Numerals
import BaseOs.FileSystem.Listing

set_option autoImplicit false

/-! # Formatted printing (`printf`, `puts`)

`printf` is run character by character of its format: the loop reads one character, and inside a
conversion the inner switch does, which is entered again after a `#`. A numeral is built in a local
array, whose former contents are arbitrary, and printed from there. What the screen is, and what `putc`
does to it, is left open.

The run is compared with what the format says (`pieces`, `expand`). The inner switch has no case for the
NUL, so a format that ends inside a conversion is read past its end; for all other formats `printf` does
what it says (`printf_right_iff`). -/

namespace BaseOs

open Stores Terminated Relation

/-- A word on the stack, and the string it points to where it is taken for a pointer. -/
structure PrintfArg where
  word : UInt32
  str : Screens.CString

/-- Where control is: at the test of the loop, at `format_char_switch`, or behind the return. -/
inductive PrintfPoint
  | loop
  | formatCharSwitch (alternate : Bool)
  | returned
  deriving DecidableEq

/-- The local variables of `printf`: `buf` counts from `format` on, `esp` from the first argument on. -/
structure PrintfState (σ : Type*) where
  point : PrintfPoint
  buf : Nat
  esp : Nat
  screen : σ

/-! ## The routines -/

section Routines

variable {σ : Type*} (putc : σ → UInt8 → σ)

/-- The loop of `puts`, from `index` on. -/
def putsLoop (s : Bytes) : Nat → Nat → σ → Option σ
  | 0, _, _ => none
  | fuel + 1, index, screen =>
    if s index ≠ 0 then putsLoop s fuel (index + 1) (putc screen (s index)) else some screen

/-- More rounds than a loop over `conv_buf` makes. -/
def convLoops : Nat := 64

/-- `itoa(value, &buf[k], radix)`. -/
def itoaAt (value : UInt32) (buf : Bytes) (k : Nat) (radix : UInt32) : Option Bytes :=
  (itoaStores convLoops value (fun j => buf (k + j)) radix).map fun stores => apply buf (shift k stores)

/-- `case 'x'`. -/
def putHex (alternate : Bool) (value : UInt32) (convBuf : Bytes) (screen : σ) : Option σ :=
  if alternate = false then
    (itoaAt value convBuf 0 16).bind fun convBuf => putsLoop putc convBuf convLoops 0 screen
  else
    (itoaAt value convBuf 8 16).bind fun convBuf =>
      (strlenFrom convLoops (fun j => convBuf (8 + j)) 0).bind fun startingIndex =>
        let padded := apply convBuf (copy startingIndex (fun _ => 48) (8 - startingIndex))
        putsLoop putc padded convLoops startingIndex screen

/-- `case 'u'`. -/
def putUnsigned (value : UInt32) (convBuf : Bytes) (screen : σ) : Option σ :=
  (itoaAt value convBuf 0 10).bind fun convBuf => putsLoop putc convBuf convLoops 0 screen

/-- `case 'd'`. -/
def putSigned (value : UInt32) (convBuf : Bytes) (screen : σ) : Option σ :=
  if value.toInt32 < 0 then
    (itoaAt (-value) (Function.update convBuf 0 45) 1 10).bind fun convBuf =>
      putsLoop putc convBuf convLoops 0 screen
  else (itoaAt value convBuf 0 10).bind fun convBuf => putsLoop putc convBuf convLoops 0 screen

/-- The cases of the inner switch but `'#'`: where `esp` is afterwards, and the screen. -/
def putConversion (c : UInt8) (alternate : Bool) (esp : Nat) (arg : PrintfArg) (convBuf : Bytes)
    (screen : σ) : Option (Nat × σ) :=
  -- in this order: `%`, `x`, `u`, `d`, `c`, `s`
  if c = 37 then some (esp, putc screen 37)
  else if c = 120 then (putHex putc alternate arg.word convBuf screen).map (esp + 1, ·)
  else if c = 117 then (putUnsigned putc arg.word convBuf screen).map (esp + 1, ·)
  else if c = 100 then (putSigned putc arg.word convBuf screen).map (esp + 1, ·)
  else if c = 99 then some (esp + 1, putc screen arg.word.toUInt8)
  else if c = 115 then (putsLoop putc arg.str.bytes (arg.str.nul + 1) 0 screen).map (esp + 1, ·)
  else some (esp, screen)

variable (format : Bytes) (args : Nat → PrintfArg) (convBuf : Nat → Bytes)

/-- `printf` up to the next character it reads. `convBuf` are the former contents of the arrays. -/
def PrintfState.step (st : PrintfState σ) : Option (PrintfState σ) :=
  let c := format st.buf
  match st.point with
  | .loop =>
    if c = 0 then some { st with point := .returned }
    else if c = 37 then some { st with point := .formatCharSwitch false, buf := st.buf + 1 }
    else some { st with buf := st.buf + 1, screen := putc st.screen c }
  | .formatCharSwitch alternate =>
    if c = 35 then some { st with point := .formatCharSwitch true, buf := st.buf + 1 }
    else
      -- the NUL is one of the unknown conversions
      (putConversion putc c alternate st.esp (args st.esp) (convBuf st.esp) st.screen).map fun r =>
        { point := .loop, buf := st.buf + 1, esp := r.1, screen := r.2 }
  | .returned => none

/-- `printf` comes from the one state to the other. -/
def PrintfState.Reaches : PrintfState σ → PrintfState σ → Prop :=
  ReflTransGen fun st st' => st.step putc format args convBuf = some st'

/-- The entry of `printf`. -/
def PrintfState.entry (screen : σ) : PrintfState σ := ⟨.loop, 0, 0, screen⟩

end Routines

/-! ## What a format says -/

/-- A character to print, or a conversion. -/
inductive PrintfPiece
  | char (c : UInt8)
  | conversion (alternate : Bool) (c : UInt8)

/-- The piece that a character completes; `conversion` is the open conversion, if there is one, and
    whether it has had its `#`. -/
def pieceAt : Option Bool → UInt8 → List PrintfPiece
  | none, c => if c = 37 then [] else [.char c]
  | some alternate, c => if c = 35 then [] else [.conversion alternate c]

/-- The conversion that is open behind a character. -/
def openBehind : Option Bool → UInt8 → Option Bool
  | none, c => if c = 37 then some false else none
  | some _, c => if c = 35 then some true else none

/-- The pieces of a format, or of the rest of one. -/
def pieces : Option Bool → List UInt8 → List PrintfPiece
  | _, [] => []
  | conversion, c :: text => pieceAt conversion c ++ pieces (openBehind conversion c) text

/-- The format ends inside a conversion: behind its `%` there are at most some `#`. -/
def endsInside : Option Bool → List UInt8 → Bool
  | conversion, [] => conversion.isSome
  | conversion, c :: text => endsInside (openBehind conversion c) text

/-- Eight hexadecimal digits. -/
def hexDigits8 (value : Nat) : List UInt8 :=
  (List.range 8).map fun i => digitChar (value / 16 ^ (7 - i) % 16)

/-- A sign for what is below zero, and the magnitude. -/
def signedNumeral (value : Int) : List UInt8 :=
  (if value < 0 then [45] else []) ++ numeral 10 value.natAbs

namespace PrintfPiece

/-- The conversions that take an argument: `x`, `u`, `d`, `c`, `s`. -/
def takesArg : PrintfPiece → Bool
  | .char _ => false
  | .conversion _ c => c ∈ [120, 117, 100, 99, 115]

/-- The characters a piece stands for. -/
def expand (arg : PrintfArg) : PrintfPiece → List UInt8
  | .char c => [c]
  | .conversion alternate c =>
    if c = 37 then [37]
    else if c = 120 then if alternate then hexDigits8 arg.word.toNat else numeral 16 arg.word.toNat
    else if c = 117 then numeral 10 arg.word.toNat
    else if c = 100 then signedNumeral arg.word.toInt32.toInt
    else if c = 99 then [arg.word.toUInt8]
    else if c = 115 then text arg.str.bytes arg.str.nul
    else []

end PrintfPiece

/-- The text that the pieces stand for, with the arguments from `k` on. -/
def expand (args : Nat → PrintfArg) : Nat → List PrintfPiece → List UInt8
  | _, [] => []
  | k, p :: ps => p.expand (args k) ++ expand args (if p.takesArg then k + 1 else k) ps

example : expand (fun _ => ⟨0xE, ⟨fun _ => 0, 0, rfl⟩⟩) 0 (pieces none (ascii "%q%#u %#x"))
    = ascii "14 0000000E" := by decide

/-- `printf` reads no character behind the NUL, returns, and has taken an argument for each conversion
    that has one and printed what the format says. -/
def PrintfRight {σ : Type*} (putc : σ → UInt8 → σ) (format : Bytes) (args : Nat → PrintfArg)
    (convBuf : Nat → Bytes) (screen : σ) (text : List UInt8) : Prop :=
  (∀ st, PrintfState.Reaches putc format args convBuf (.entry screen) st →
    st.point ≠ .returned → st.buf ≤ text.length) ∧
  ∃ st, PrintfState.Reaches putc format args convBuf (.entry screen) st ∧ st.point = .returned ∧
    st.esp = (pieces none text).countP (·.takesArg) ∧
    st.screen = (expand args 0 (pieces none text)).foldl putc screen

/-! ## The conversions -/

section Conversions

variable {σ : Type*} {putc : σ → UInt8 → σ} {screen : σ} {buf : Bytes} {text : List UInt8} {k : Nat}

/-- `puts` prints the characters up to the NUL. -/
theorem putsLoop_eq {fuel : Nat} (h : Spells (fun j => buf (k + j)) text) (hfuel : text.length < fuel) :
    putsLoop putc buf fuel k screen = some (text.foldl putc screen) := by
  induction text generalizing k fuel screen with
  | nil =>
      obtain ⟨fuel, rfl⟩ := Nat.exists_eq_succ_of_ne_zero (Nat.ne_of_gt hfuel)
      have hzero : buf k = 0 := h.zero
      rw [putsLoop, if_neg (not_not.2 hzero), List.foldl_nil]
  | cons c text ih =>
      obtain ⟨fuel, rfl⟩ := Nat.exists_eq_succ_of_ne_zero (Nat.ne_of_gt (Nat.zero_lt_of_lt hfuel))
      obtain ⟨⟨hget, hne⟩, hrest⟩ := spells_cons.1 h
      rw [List.length_cons] at hfuel
      rw [putsLoop, hget, if_pos hne, ih hrest (by omega), List.foldl_cons]

/-- `itoa` at a place of a buffer leaves the numeral there and what is before it alone. -/
theorem itoaAt_eq {r : UInt32} (hlo : 2 ≤ r.toNat) (hhi : r.toNat ≤ 36) (value : UInt32) (buf : Bytes)
    (k : Nat) : ∃ buf', itoaAt value buf k r = some buf' ∧ (∀ i < k, buf' i = buf i) ∧
      Spells (fun j => buf' (k + j)) (numeral r.toNat value.toNat) := by
  obtain ⟨stores, hstores, -, hspells⟩ := itoaStores_eq hlo hhi 31 value fun j => buf (k + j)
  refine ⟨apply buf (shift k stores), ?_, fun i hi => apply_shift_of_lt buf hi stores,
    hspells.congr fun i _ => apply_shift buf k stores i⟩
  rw [itoaAt, show convLoops = 31 + 33 from rfl, hstores, Option.map_some]

theorem length_numeral_le {radix n : Nat} (hn : 0 < n) (hlo : 2 ≤ radix) {value : Nat}
    (hvalue : value < radix ^ n) : (numeral radix value).length ≤ n := by
  unfold numeral
  split_ifs
  · exact hn
  · rw [List.length_reverse, List.length_map, Nat.digits_length_le_iff (by omega)]
    exact hvalue

theorem length_numeral_word {radix : Nat} (hlo : 2 ≤ radix) (value : UInt32) :
    (numeral radix value.toNat).length ≤ 32 :=
  length_numeral_le (by decide) hlo (value.toNat_lt.trans_le (Nat.pow_le_pow_left hlo 32))

/-- A numeral filled up with zeros on the left has the digits by place. -/
theorem hexDigits8_eq {value : Nat} (hvalue : value < 16 ^ 8) :
    List.replicate (8 - (numeral 16 value).length) 48 ++ numeral 16 value = hexDigits8 value := by
  rcases Nat.eq_zero_or_pos value with rfl | hpos
  · decide
  have hlen := length_numeral_le (show 0 < 8 by decide) (by decide) hvalue
  have hnum : numeral 16 value = ((Nat.digits 16 value).map digitChar).reverse := by
    rw [numeral, if_neg hpos.ne']
  unfold hexDigits8
  rw [hnum, List.length_reverse, List.length_map] at hlen ⊢
  refine List.ext_getElem (by simp; omega) fun i _ hi => ?_
  have hi8 : i < 8 := by simpa using hi
  rw [List.getElem_map, List.getElem_range, ← Nat.getD_digits _ _ (by decide : 2 ≤ 16)]
  by_cases hzero : i < 8 - (Nat.digits 16 value).length
  · rw [List.getElem_append_left (by simpa using hzero), List.getElem_replicate,
      List.getD_eq_default _ _ (by omega)]
    rfl
  · rw [List.getElem_append_right (by simpa using Nat.le_of_not_lt hzero), List.getElem_reverse,
      List.getElem_map, List.getD_eq_getElem _ _ (by omega)]
    congr 2
    simp only [List.length_map, List.length_replicate]
    omega

/-- A numeral built at the start of the array and printed from there. -/
theorem putNumeral_eq {r : UInt32} (hlo : 2 ≤ r.toNat) (hhi : r.toNat ≤ 36) (value : UInt32)
    (convBuf : Bytes) :
    ((itoaAt value convBuf 0 r).bind fun convBuf => putsLoop putc convBuf convLoops 0 screen)
      = some ((numeral r.toNat value.toNat).foldl putc screen) := by
  obtain ⟨convBuf', hitoa, -, hspells⟩ := itoaAt_eq hlo hhi value convBuf 0
  rw [hitoa, Option.bind_some, putsLoop_eq hspells]
  exact (length_numeral_word hlo value).trans_lt (by decide)

/-- Zeros are stored from the place that leaves the digits eight characters, up to the digits. -/
theorem spells_padded (h : Spells (fun j => buf (8 + j)) text) (hlen : text.length ≤ 8) :
    Spells (fun j => apply buf (copy text.length (fun _ => 48) (8 - text.length)) (text.length + j))
      (List.replicate (8 - text.length) 48 ++ text) where
  get i hi := by
    rw [List.length_append, List.length_replicate] at hi
    rw [apply_copy]
    by_cases hzero : i < 8 - text.length
    · rw [if_pos (by omega), List.getD_append _ _ _ _ (by simpa using hzero),
        List.getD_replicate _ hzero]
    · rw [if_neg (by omega), List.getD_append_right _ _ _ _ (by simpa using Nat.le_of_not_lt hzero),
        List.length_replicate, ← h.get _ (by omega)]
      congr 1
      omega
  nonzero c hc := by
    rcases List.mem_append.1 hc with hpad | htext
    · rw [List.eq_of_mem_replicate hpad]
      decide
    · exact h.nonzero c htext

theorem putHex_eq (alternate : Bool) (value : UInt32) (convBuf : Bytes) :
    putHex putc alternate value convBuf screen
      = some ((if alternate then hexDigits8 value.toNat else numeral 16 value.toNat).foldl putc
          screen) := by
  unfold putHex
  cases alternate with
  | false =>
      rw [if_pos rfl, if_neg Bool.false_ne_true]
      exact putNumeral_eq (by decide) (by decide) value convBuf
  | true =>
      rw [if_neg (Ne.symm Bool.false_ne_true), if_pos rfl]
      obtain ⟨convBuf', hitoa, -, hspells⟩ := @itoaAt_eq 16 (by decide) (by decide) value convBuf 8
      have hlen : (numeral 16 value.toNat).length ≤ 8 :=
        length_numeral_le (by decide) (by decide) value.toNat_lt
      rw [hitoa, Option.bind_some, show convLoops = 63 + 1 from rfl,
        strlenFrom_eq hspells (Nat.zero_le _) (hlen.trans (by decide)), Option.bind_some]
      simp only
      rw [putsLoop_eq (spells_padded hspells hlen), ← hexDigits8_eq value.toNat_lt]
      · rfl
      · rw [List.length_append, List.length_replicate]
        change 8 - (numeral 16 value.toNat).length + (numeral 16 value.toNat).length < 64
        omega

theorem toInt_word (value : UInt32) :
    value.toInt32.toInt
      = if value.toNat < 2 ^ 31 then (value.toNat : Int) else value.toNat - 2 ^ 32 := by
  change value.toBitVec.toInt = _
  rw [BitVec.toInt_eq_toNat_cond]
  change (if 2 * value.toNat < 2 ^ 32 then (value.toNat : Int) else _) = _
  split_ifs
  · rfl
  · omega
  · omega
  · rfl

/-- The negation is the magnitude, also of the least number. -/
theorem toNat_neg_word {value : UInt32} (h : value.toInt32 < 0) :
    (-value).toNat = value.toInt32.toInt.natAbs := by
  have hlt := value.toNat_lt
  have hsize : UInt32.size = 2 ^ 32 := rfl
  rw [Int32.lt_iff_toInt_lt, Int32.toInt_zero, toInt_word] at h
  rw [toInt_word, UInt32.toNat_neg, hsize]
  split_ifs at h ⊢
  · omega
  · omega

theorem toNat_natAbs_word {value : UInt32} (h : ¬ value.toInt32 < 0) :
    value.toNat = value.toInt32.toInt.natAbs := by
  have hlt := value.toNat_lt
  rw [Int32.lt_iff_toInt_lt, Int32.toInt_zero, toInt_word] at h
  rw [toInt_word]
  split_ifs at h ⊢
  · omega
  · omega

theorem putSigned_eq (value : UInt32) (convBuf : Bytes) :
    putSigned putc value convBuf screen
      = some ((signedNumeral value.toInt32.toInt).foldl putc screen) := by
  have hsign : value.toInt32.toInt < 0 ↔ value.toInt32 < 0 := by
    rw [Int32.lt_iff_toInt_lt, Int32.toInt_zero]
  unfold putSigned signedNumeral
  simp only [hsign]
  split_ifs with hneg
  · obtain ⟨convBuf', hitoa, hsame, hspells⟩ :=
      @itoaAt_eq 10 (by decide) (by decide) (-value) (Function.update convBuf 0 45) 1
    have hminus : convBuf' 0 = 45 := hsame 0 Nat.one_pos
    have hall : Spells (fun j => convBuf' (0 + j)) (45 :: numeral 10 (-value).toNat) :=
      spells_cons.2 ⟨⟨hminus, by decide⟩, hspells⟩
    rw [hitoa, Option.bind_some, putsLoop_eq hall, toNat_neg_word hneg]
    · rfl
    · exact Nat.succ_lt_succ ((length_numeral_word (by decide) (-value)).trans_lt (by decide))
  · rw [List.nil_append, ← toNat_natAbs_word hneg]
    exact putNumeral_eq (by decide) (by decide) value convBuf

/-- A case of the inner switch prints what the conversion stands for. -/
theorem putConversion_eq {c : UInt8} {alternate : Bool} {esp : Nat} {arg : PrintfArg}
    {convBuf : Bytes} :
    putConversion putc c alternate esp arg convBuf screen
      = some (if (PrintfPiece.conversion alternate c).takesArg then esp + 1 else esp,
          ((PrintfPiece.conversion alternate c).expand arg).foldl putc screen) := by
  have hstr : putsLoop putc arg.str.bytes (arg.str.nul + 1) 0 screen
      = some ((text arg.str.bytes arg.str.nul).foldl putc screen) := by
    refine putsLoop_eq ?_ (Nat.lt_succ_of_le (length_text_le _ _))
    simpa only [Nat.zero_add] using spells_text arg.str.bytes_nul
  unfold putConversion PrintfPiece.expand PrintfPiece.takesArg
  by_cases hpercent : c = 37
  · simp [hpercent]
  by_cases hhex : c = 120
  · simp [hhex, putHex_eq]
  by_cases hunsigned : c = 117
  · simp [hunsigned, putUnsigned, putNumeral_eq]
  by_cases hsigned : c = 100
  · simp [hsigned, putSigned_eq]
  by_cases hchar : c = 99
  · simp [hchar]
  by_cases hstring : c = 115
  · simp [hstring, hstr]
  · simp [hpercent, hhex, hunsigned, hsigned, hchar, hstring]

end Conversions

/-! ## The run -/

section Run

variable {σ : Type*} {putc : σ → UInt8 → σ} {format : Bytes} {args : Nat → PrintfArg}
  {convBuf : Nat → Bytes} {st st' : PrintfState σ} {conversion : Option Bool} {c : UInt8}
  {rest : List UInt8} {limit : Nat}

theorem expand_append (args : Nat → PrintfArg) (k : Nat) (ps qs : List PrintfPiece) :
    expand args k (ps ++ qs) = expand args k ps ++ expand args (k + ps.countP (·.takesArg)) qs := by
  induction ps generalizing k with
  | nil => rfl
  | cons p ps ih =>
      rw [List.cons_append, expand, expand, ih, List.append_assoc, List.countP_cons]
      congr 3
      split_ifs
      · omega
      · omega

/-- Where control is before a character. -/
def pointAt : Option Bool → PrintfPoint
  | none => .loop
  | some alternate => .formatCharSwitch alternate

/-- Up to the next character `printf` takes the arguments of the piece that is complete, and prints it. -/
theorem step_piece (hpoint : st.point = pointAt conversion) (hc : format st.buf = c) (hne : c ≠ 0) :
    ∃ m, st.step putc format args convBuf = some m ∧ m.point = pointAt (openBehind conversion c) ∧
      m.buf = st.buf + 1 ∧ m.esp = st.esp + (pieceAt conversion c).countP (·.takesArg) ∧
      m.screen = (expand args st.esp (pieceAt conversion c)).foldl putc st.screen := by
  unfold PrintfState.step
  cases conversion with
  | none =>
      simp only [hpoint, pointAt, hc, if_neg hne, pieceAt, openBehind]
      split_ifs
      · exact ⟨_, rfl, rfl, rfl, rfl, rfl⟩
      · exact ⟨_, rfl, rfl, rfl, rfl, rfl⟩
  | some alternate =>
      simp only [hpoint, pointAt, hc, pieceAt, openBehind]
      split_ifs
      · exact ⟨_, rfl, rfl, rfl, rfl, rfl⟩
      · rw [putConversion_eq, Option.map_some]
        refine ⟨_, rfl, rfl, rfl, ?_, ?_⟩
        · rw [List.countP_singleton]
          split_ifs
          · rfl
          · rfl
        · rw [expand, expand, List.append_nil]

/-- From here on `printf` reads nothing behind `limit`, returns, and takes the arguments of the pieces and
    prints them. -/
structure PrintfState.Finishes (putc : σ → UInt8 → σ) (format : Bytes) (args : Nat → PrintfArg)
    (convBuf : Nat → Bytes) (limit : Nat) (ps : List PrintfPiece) (st : PrintfState σ) : Prop where
  reads : ∀ st', st.Reaches putc format args convBuf st' → st'.point ≠ .returned → st'.buf ≤ limit
  returns : ∃ st', st.Reaches putc format args convBuf st' ∧ st'.point = .returned ∧
    st'.esp = st.esp + ps.countP (·.takesArg) ∧ st'.screen = (expand args st.esp ps).foldl putc st.screen

theorem PrintfState.Finishes.of_returned (h : st.point = .returned) :
    st.Finishes putc format args convBuf limit [] where
  reads st' hreach := by
    rcases ReflTransGen.cases_head hreach with rfl | ⟨m, hstep, -⟩
    · intro hne
      exact absurd h hne
    · rw [PrintfState.step, h] at hstep
      cases hstep
  returns := ⟨st, ReflTransGen.refl, h, rfl, rfl⟩

theorem PrintfState.Finishes.of_step {ps qs : List PrintfPiece} {m : PrintfState σ}
    (hstep : st.step putc format args convBuf = some m) (hbuf : st.buf ≤ limit)
    (hesp : m.esp = st.esp + ps.countP (·.takesArg))
    (hscreen : m.screen = (expand args st.esp ps).foldl putc st.screen)
    (hrest : m.Finishes putc format args convBuf limit qs) :
    st.Finishes putc format args convBuf limit (ps ++ qs) where
  reads st' hreach := by
    rcases ReflTransGen.cases_head hreach with rfl | ⟨m', hstep', hreach'⟩
    · exact fun _ => hbuf
    · obtain rfl := Option.some.inj (hstep.symm.trans hstep')
      exact hrest.reads st' hreach'
  returns := by
    obtain ⟨last, hreach, hreturned, hesp', hscreen'⟩ := hrest.returns
    refine ⟨last, ReflTransGen.head hstep hreach, hreturned, ?_, ?_⟩
    · rw [hesp', hesp, List.countP_append, Nat.add_assoc]
    · rw [hscreen', hscreen, hesp, expand_append, List.foldl_append]

/-- The rest of a format that does not end inside a conversion. -/
theorem finishes (hpoint : st.point = pointAt conversion)
    (hformat : Spells (fun j => format (st.buf + j)) rest) (hends : endsInside conversion rest = false)
    (hlimit : st.buf + rest.length ≤ limit) :
    st.Finishes putc format args convBuf limit (pieces conversion rest) := by
  induction rest generalizing conversion st with
  | nil =>
      cases conversion with
      | some alternate => cases hends
      | none =>
          have hnul : format st.buf = 0 := hformat.zero
          have hstep : st.step putc format args convBuf = some { st with point := .returned } := by
            rw [PrintfState.step, hpoint]
            simp only [pointAt, hnul, if_true]
          change st.Finishes putc format args convBuf limit ([] ++ [])
          exact PrintfState.Finishes.of_step hstep hlimit rfl rfl (PrintfState.Finishes.of_returned rfl)
  | cons c rest ih =>
      obtain ⟨⟨hc, hne⟩, hformat'⟩ := spells_cons.1 hformat
      obtain ⟨m, hstep, hpoint', hbuf, hesp, hscreen⟩ := step_piece hpoint hc hne
      rw [← hbuf] at hformat'
      rw [List.length_cons] at hlimit
      have hrest := ih hpoint' hformat' hends (by omega)
      exact PrintfState.Finishes.of_step hstep (by omega) hesp hscreen hrest

/-- A format that ends inside a conversion: the inner switch passes the NUL, and the loop tests what is
    behind it. -/
theorem overruns (hpoint : st.point = pointAt conversion)
    (hformat : Spells (fun j => format (st.buf + j)) rest) (hends : endsInside conversion rest = true) :
    ∃ st', st.Reaches putc format args convBuf st' ∧ st'.point = .loop ∧
      st'.buf = st.buf + rest.length + 1 := by
  induction rest generalizing conversion st with
  | nil =>
      cases conversion with
      | none => cases hends
      | some alternate =>
          have hnul : format st.buf = 0 := hformat.zero
          refine ⟨⟨.loop, st.buf + 1, st.esp, st.screen⟩, ReflTransGen.single ?_, rfl, rfl⟩
          rw [PrintfState.step, hpoint]
          simp only [pointAt, hnul]
          rw [if_neg (by decide), putConversion_eq]
          rfl
  | cons c rest ih =>
      obtain ⟨⟨hc, hne⟩, hformat'⟩ := spells_cons.1 hformat
      obtain ⟨m, hstep, hpoint', hbuf, -, -⟩ := step_piece hpoint hc hne
      rw [← hbuf] at hformat'
      obtain ⟨st', hreach, hloop, hover⟩ := ih hpoint' hformat' hends
      refine ⟨st', ReflTransGen.head hstep hreach, hloop, ?_⟩
      rw [hover, hbuf, List.length_cons]
      omega

end Run

variable {σ : Type*} {putc : σ → UInt8 → σ} {format : Bytes} {args : Nat → PrintfArg}
  {convBuf : Nat → Bytes} {screen : σ} {text : List UInt8}

theorem spells_entry (hformat : Spells format text) :
    Spells (fun j => format ((PrintfState.entry screen).buf + j)) text := by
  simpa only [PrintfState.entry, Nat.zero_add] using hformat

/-- A format that ends inside a conversion is read past its end. -/
theorem PrintfRight.not_endsInside (hformat : Spells format text)
    (hright : PrintfRight putc format args convBuf screen text) : endsInside none text = false := by
  by_contra hends
  obtain ⟨st, hreach, hloop, hbuf⟩ := @overruns σ putc format args convBuf (.entry screen) none text rfl
    (spells_entry hformat) (Bool.eq_true_of_not_eq_false hends)
  have hle := hright.1 st hreach (by rw [hloop]; exact PrintfPoint.noConfusion)
  rw [hbuf, PrintfState.entry] at hle
  omega

theorem printfRight_of_not_endsInside (hformat : Spells format text)
    (hends : endsInside none text = false) : PrintfRight putc format args convBuf screen text := by
  have hfinishes := @finishes σ putc format args convBuf (.entry screen) none text text.length rfl
    (spells_entry hformat) hends (by rw [PrintfState.entry, Nat.zero_add])
  obtain ⟨st, hreach, hreturned, hesp, hscreen⟩ := hfinishes.returns
  refine ⟨hfinishes.reads, st, hreach, hreturned, ?_, hscreen⟩
  rw [hesp, PrintfState.entry, Nat.zero_add]

/-- For every format and all arguments, `printf` does what the format says if and only if the format does
    not end inside a conversion. -/
theorem printf_right_iff {σ : Type*} (putc : σ → UInt8 → σ) {format : Bytes} {text : List UInt8}
    (hformat : Spells format text) (args : Nat → PrintfArg) (convBuf : Nat → Bytes) (screen : σ) :
    PrintfRight putc format args convBuf screen text ↔ endsInside none text = false :=
  ⟨PrintfRight.not_endsInside hformat, printfRight_of_not_endsInside hformat⟩

/-- Every kind of conversion, with a zero for each argument. -/
theorem printf_right_conversions :
    PrintfRight (fun (out : List UInt8) c => out ++ [c]) (cstr (ascii "%x %##x %u %d %c%s%%%q."))
      (fun _ => ⟨0, ⟨fun _ => 0, 0, rfl⟩⟩) (fun _ _ => 0) [] (ascii "%x %##x %u %d %c%s%%%q.") :=
  (printf_right_iff _ ⟨fun _ _ => rfl, by simp [ascii]⟩ _ _ _).2 rfl

/-- The format `%` is read past its end. -/
theorem printf_percent_overruns :
    Spells (cstr (ascii "%")) (ascii "%") ∧
    ¬ PrintfRight (fun (out : List UInt8) c => out ++ [c]) (cstr (ascii "%"))
      (fun _ => ⟨0, ⟨fun _ => 0, 0, rfl⟩⟩) (fun _ _ => 0) [] (ascii "%") := by
  have hformat : Spells (cstr (ascii "%")) (ascii "%") := ⟨fun _ _ => rfl, by simp [ascii]⟩
  refine ⟨hformat, fun hright => ?_⟩
  cases hright.not_endsInside hformat

/-! ## The texts the kernel prints -/

/-- What comes before the first conversion is printed as it is. -/
theorem expand_plain_append (hplain : 37 ∉ text) (rest : List UInt8) (args : Nat → PrintfArg) (k : Nat) :
    endsInside none (text ++ rest) = endsInside none rest ∧
      expand args k (pieces none (text ++ rest)) = text ++ expand args k (pieces none rest) := by
  induction text with
  | nil => exact ⟨rfl, rfl⟩
  | cons c text ih =>
      obtain ⟨hc, htext⟩ := not_or.1 (List.mem_cons.not.1 hplain)
      obtain ⟨hends, hexpand⟩ := ih htext
      rw [List.cons_append, endsInside, pieces, openBehind, pieceAt, if_neg (Ne.symm hc),
        if_neg (Ne.symm hc)]
      refine ⟨hends, ?_⟩
      rw [List.singleton_append, expand, PrintfPiece.expand, PrintfPiece.takesArg,
        if_neg Bool.false_ne_true, hexpand, List.singleton_append, List.cons_append]

/-- A text without conversions is its own expansion. -/
theorem expand_plain (hplain : 37 ∉ text) (args : Nat → PrintfArg) (k : Nat) :
    endsInside none text = false ∧ expand args k (pieces none text) = text := by
  have happend := expand_plain_append hplain [] args k
  rw [List.append_nil, pieces, expand, List.append_nil] at happend
  exact happend

theorem printfInt_eq (value : UInt32) : printfInt value = signedNumeral value.toInt32.toInt := by
  have hsign : value.toInt32.toInt < 0 ↔ value.toInt32 < 0 := by
    rw [Int32.lt_iff_toInt_lt, Int32.toInt_zero]
  unfold printfInt signedNumeral
  simp only [hsign]
  split_ifs with hneg
  · rw [itoa_eq_numeral (by decide), toNat_neg_word hneg]
    rfl
  · rw [itoa_eq_numeral (by decide), ← toNat_natAbs_word hneg]
    rfl

/-- A text with one `%d` in it. -/
theorem expand_int {pre post : List UInt8} (hpre : 37 ∉ pre) (hpost : 37 ∉ post)
    (args : Nat → PrintfArg) :
    endsInside none (pre ++ (ascii "%d" ++ post)) = false ∧
      expand args 0 (pieces none (pre ++ (ascii "%d" ++ post)))
        = pre ++ (printfInt (args 0).word ++ post) := by
  obtain ⟨hends, hexpand⟩ := expand_plain_append hpre (ascii "%d" ++ post) args 0
  obtain ⟨hends', hexpand'⟩ := expand_plain hpost args 1
  have hpieces : pieces none (ascii "%d" ++ post) = .conversion false 100 :: pieces none post := rfl
  rw [hends, hexpand, hpieces]
  refine ⟨hends', ?_⟩
  rw [expand, printfInt_eq]
  exact congrArg (fun t => pre ++ (signedNumeral _ ++ t)) hexpand'

/-- On the console model `printf` is `Kernel.printf` of what the format says. -/
theorem printf_console (k : Kernel) (hformat : Spells format text) (hends : endsInside none text = false) :
    ∃ st, PrintfState.Reaches Console.putc format args convBuf (.entry k.console) st ∧
      st.point = .returned ∧ k.setConsole st.screen = k.printf (expand args 0 (pieces none text)) := by
  obtain ⟨-, st, hreach, hreturned, -, hscreen⟩ :=
    @printfRight_of_not_endsInside Console Console.putc format args convBuf k.console text hformat hends
  refine ⟨st, hreach, hreturned, ?_⟩
  rw [hscreen]
  rfl

/-- A line of `print_file_info`, which has one number in it. -/
theorem printf_int (k : Kernel) {pre post : List UInt8} (hpre : 37 ∉ pre) (hpost : 37 ∉ post)
    (hformat : Spells format (pre ++ (ascii "%d" ++ post))) :
    ∃ st, PrintfState.Reaches Console.putc format args convBuf (.entry k.console) st ∧
      st.point = .returned ∧
      k.setConsole st.screen = k.printf (pre ++ (printfInt (args 0).word ++ post)) := by
  obtain ⟨hends, hexpand⟩ := expand_int hpre hpost args
  obtain ⟨st, hreach, hreturned, hscreen⟩ := printf_console k hformat hends
  exact ⟨st, hreach, hreturned, hscreen.trans (congrArg k.printf hexpand)⟩

end BaseOs
