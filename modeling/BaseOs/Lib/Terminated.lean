import Mathlib
import BaseOs.Lib.Scan

set_option autoImplicit false

/-! # Terminated text in a buffer

A buffer is a function from positions, and a zero ends the text in it: what lies behind the zero is
not part of the text. `Spells` says that a buffer begins with a text and its end mark, and sees nothing
of what an earlier, longer text has left behind; `text` reads the text of a buffer of known size. -/

namespace Terminated

variable {α : Type*}

/-! ## Lists -/

section Lists

variable {p n : α → Bool} {l r : List α}

/-- Skipping inside a text, and cutting the text off where skipping ends. -/
theorem takeWhile_dropWhile_and (l : List α) :
    (l.dropWhile fun a => p a && n a).takeWhile n = (l.takeWhile n).dropWhile p := by
  induction l with
  | nil => rfl
  | cons a l ih => cases hp : p a <;> cases hn : n a <;> simp [hp, hn, ih]

/-- Skipping one kind of elements and then the other kind skips at least the first element. -/
theorem length_dropWhile_dropWhile_lt (h : l ≠ []) :
    ((l.dropWhile fun a => !p a).dropWhile p).length < l.length := by
  cases l with
  | nil => exact absurd rfl h
  | cons a l =>
      have hle : ∀ q : α → Bool, ∀ l : List α, (l.dropWhile q).length ≤ l.length :=
        fun q l => (List.dropWhile_suffix q).length_le
      cases hp : p a with
      | true =>
          simp only [List.dropWhile_cons, hp, Bool.not_true, Bool.false_eq_true, if_false, if_true]
          exact Nat.lt_succ_of_le (hle p l)
      | false =>
          simp only [List.dropWhile_cons, hp, Bool.not_false, if_true]
          exact Nat.lt_succ_of_le ((hle p _).trans (hle _ l))

/-- What is skipped at the end does not matter for what is left. -/
theorem rdropWhile_append_of_all (h : ∀ a ∈ r, p a = true) :
    (l ++ r).rdropWhile p = l.rdropWhile p := by
  unfold List.rdropWhile
  rw [List.reverse_append, List.dropWhile_append_of_pos fun a ha => h a (List.mem_reverse.1 ha)]

theorem rdropWhile_append (l r : List α) :
    (l ++ r).rdropWhile p = if r.rdropWhile p = [] then l.rdropWhile p else l ++ r.rdropWhile p := by
  unfold List.rdropWhile
  rw [List.reverse_append, List.dropWhile_append]
  by_cases hr : r.reverse.dropWhile p = []
  · simp [hr]
  · simp [hr]

/-- Behind an element that could be skipped itself, only what is left after skipping counts. -/
theorem rdropWhile_append_cons_iff {a : α} {r' : List α} (ha : p a = true) :
    (l ++ a :: r).rdropWhile p = (l ++ a :: r').rdropWhile p ↔ r.rdropWhile p = r'.rdropWhile p := by
  have hcons : ∀ r : List α, (l ++ a :: r).rdropWhile p
      = if r.rdropWhile p = [] then l.rdropWhile p else l ++ a :: r.rdropWhile p := by
    intro r
    rw [← List.singleton_append, rdropWhile_append, rdropWhile_append, List.rdropWhile_singleton,
      if_pos ha]
    by_cases hr : r.rdropWhile p = []
    · simp [hr]
    · simp [hr]
  -- what is left of the front alone is shorter than anything that reaches behind `a`
  have hshort : ∀ r : List α, l.rdropWhile p ≠ l ++ a :: r := by
    intro r heq
    have hlen := (List.rdropWhile_prefix p l).length_le
    rw [heq, List.length_append, List.length_cons] at hlen
    omega
  rw [hcons, hcons]
  split_ifs with hr hr' hr'
  · rw [hr, hr']
    exact iff_of_true rfl rfl
  · rw [hr]
    exact iff_of_false (hshort _) (Ne.symm hr')
  · rw [hr']
    exact iff_of_false (hshort _).symm hr
  · rw [List.append_cancel_left_eq, List.cons.injEq]
    exact and_iff_right rfl

/-- Texts of one length, trimmed and filled up again, agree if and only if they agree trimmed. -/
theorem rdropWhile_fill_iff {a : α} (ha : p a = true) {m n : Nat}
    (hlen : (l.rdropWhile p ++ List.replicate m a).length = (r.rdropWhile p ++ List.replicate n a).length) :
    l.rdropWhile p ++ List.replicate m a = r.rdropWhile p ++ List.replicate n a ↔
      l.rdropWhile p = r.rdropWhile p := by
  have hfill : ∀ (l : List α) (m : Nat),
      (l.rdropWhile p ++ List.replicate m a).rdropWhile p = l.rdropWhile p := by
    intro l m
    rw [rdropWhile_append_of_all fun b hb => by rwa [List.eq_of_mem_replicate hb]]
    exact List.rdropWhile_idempotent p l
  constructor
  · intro h
    rw [← hfill l m, h, hfill]
  · intro h
    rw [List.length_append, List.length_append, h, Nat.add_left_cancel_iff, List.length_replicate,
      List.length_replicate] at hlen
    rw [h, hlen]

theorem drop_length_takeWhile (p : α → Bool) (l : List α) :
    l.drop (l.takeWhile p).length = l.dropWhile p := by
  nth_rewrite 2 [← List.takeWhile_append_dropWhile (p := p) (l := l)]
  rw [List.drop_left]

theorem drop_map_range (f : Nat → α) (n c : Nat) :
    ((List.range n).map f).drop c = (List.range' c (n - c)).map f := by
  rw [← List.map_drop, List.range_eq_range', List.drop_range']
  simp

theorem take_map_range' (f : Nat → α) (c n m : Nat) :
    ((List.range' c n).map f).take m = (List.range' c (min m n)).map f := by
  rw [← List.map_take]
  rcases Nat.le_total n m with h | h
  · rw [Nat.min_eq_right h, List.take_range'_of_length_le h]
  · rw [Nat.min_eq_left h, List.take_range'_of_length_ge h]

/-- A scan counts the elements a predicate holds of. -/
theorem scan_eq_length (p : α → Bool) (buf : Nat → α) (i fuel : Nat) :
    Scan.scan (fun j => p (buf j)) i fuel
      = i + (((List.range' i fuel).map buf).takeWhile p).length := by
  induction fuel generalizing i with
  | zero => rfl
  | succ fuel ih =>
      rw [List.range'_succ, List.map_cons, List.takeWhile_cons, Scan.scan]
      split_ifs
      · rw [ih, List.length_cons]
        omega
      · rfl

end Lists

/-! ## Buffers -/

variable [Zero α] {buf buf' : Nat → α} {s : List α} {m n : Nat}

/-- The buffer begins with the text `s` and the zero that ends it. -/
structure Spells (buf : Nat → α) (s : List α) : Prop where
  get : ∀ i ≤ s.length, buf i = s.getD i 0
  nonzero : ∀ c ∈ s, c ≠ 0

theorem Spells.getElem (h : Spells buf s) {i : Nat} (hi : i < s.length) : buf i = s[i] := by
  rw [h.get i hi.le]
  simp [hi]

theorem Spells.zero (h : Spells buf s) : buf s.length = 0 := by
  rw [h.get _ le_rfl]
  simp

theorem Spells.ne_zero (h : Spells buf s) {i : Nat} (hi : i < s.length) : buf i ≠ 0 := by
  rw [h.getElem hi]
  exact h.nonzero _ (List.getElem_mem hi)

theorem Spells.congr (h : Spells buf s) (heq : ∀ i ≤ s.length, buf' i = buf i) : Spells buf' s :=
  ⟨fun i hi => (heq i hi).trans (h.get i hi), h.nonzero⟩

/-- From a position on, the first element of the text and then the others. -/
theorem spells_cons {a : α} : Spells (fun i => buf (m + i)) (a :: s) ↔
    (buf m = a ∧ a ≠ 0) ∧ Spells (fun i => buf (m + 1 + i)) s := by
  constructor
  · intro h
    refine ⟨⟨h.get 0 (Nat.zero_le _), h.nonzero a List.mem_cons_self⟩, fun i hi => ?_,
      fun c hc => h.nonzero c (List.mem_cons_of_mem a hc)⟩
    have hget := h.get (i + 1) (Nat.succ_le_succ hi)
    rwa [List.getD_cons_succ, Nat.add_comm i, ← Nat.add_assoc] at hget
  · rintro ⟨⟨rfl, ha⟩, h⟩
    refine ⟨fun i hi => ?_, List.forall_mem_cons.2 ⟨ha, h.nonzero⟩⟩
    cases i with
    | zero => rfl
    | succ i =>
        have hget := h.get i (Nat.le_of_succ_le_succ hi)
        rwa [List.getD_cons_succ, Nat.add_comm i, ← Nat.add_assoc]

/-- A text from one of its positions on. -/
theorem Spells.drop (h : Spells (fun i => buf (m + i)) s) (hn : n ≤ s.length) :
    Spells (fun i => buf (m + n + i)) (s.drop n) where
  get i hi := by
    rw [List.length_drop] at hi
    have hget := h.get (n + i) (by omega)
    rw [List.getD_eq_getElem?_getD, List.getElem?_drop, ← List.getD_eq_getElem?_getD, ← hget,
      Nat.add_assoc]
  nonzero c hc := h.nonzero c (List.mem_of_mem_drop hc)

/-- An earlier zero ends the text earlier. -/
theorem Spells.take (h : Spells buf s) (hm : m ≤ s.length) (heq : ∀ i < m, buf' i = buf i)
    (hzero : buf' m = 0) : Spells buf' (s.take m) where
  get i hi := by
    have hlen : (s.take m).length = m := by simp [hm]
    rw [hlen] at hi
    rcases Nat.eq_or_lt_of_le hi with rfl | hlt
    · rw [hzero]
      simp
    · rw [heq i hlt, h.get i (by omega)]
      simp [hlt]
  nonzero c hc := h.nonzero c (List.mem_of_mem_take hc)

/-- A text without zeros begins a list that has its elements, seen as followed by zeros. -/
theorem prefix_iff_getD {l : List α} (h : ∀ c ∈ s, c ≠ 0) :
    s <+: l ↔ ∀ j < s.length, l.getD j 0 = s.getD j 0 := by
  rw [List.prefix_iff_getElem?]
  refine forall₂_congr fun j hj => ?_
  rw [List.getD_eq_getElem s _ hj, List.getD_eq_getElem?_getD]
  constructor
  · intro hget
    rw [hget, Option.getD_some]
  · intro hget
    cases hl : l[j]? with
    | none =>
        rw [hl, Option.getD_none] at hget
        exact absurd hget.symm (h _ (List.getElem_mem hj))
    | some c => rw [← hget, hl, Option.getD_some]

variable [DecidableEq α]

/-- The text in the first `n` places of a buffer. -/
def text (buf : Nat → α) (n : Nat) : List α := ((List.range n).map buf).takeWhile (· != 0)

theorem length_text_le (buf : Nat → α) (n : Nat) : (text buf n).length ≤ n :=
  (List.takeWhile_prefix _).length_le.trans_eq (by simp)

theorem scan_eq_length_text (buf : Nat → α) (n : Nat) :
    Scan.scan (fun i => buf i != 0) 0 n = (text buf n).length := by
  rw [scan_eq_length (fun a : α => a != 0) buf 0 n, Nat.zero_add, ← List.range_eq_range']
  rfl

theorem Spells.scan (h : Spells buf s) (hn : s.length ≤ n) :
    Scan.scan (fun i => buf i != 0) 0 n = s.length := by
  refine Scan.scan_eq_of _ (Nat.zero_le _) (by omega) (fun j _ hj => ?_) (fun _ => ?_)
  · simpa using h.ne_zero hj
  · simp [h.zero]

theorem Spells.text (h : Spells buf s) (hn : s.length ≤ n) : text buf n = s := by
  have hscan := scan_eq_length_text buf n
  rw [h.scan hn] at hscan
  refine List.ext_getElem hscan.symm fun i hi hs => ?_
  unfold Terminated.text
  rw [List.IsPrefix.getElem (List.takeWhile_prefix _) hi, List.getElem_map, List.getElem_range,
    h.getElem hs]

/-- A buffer spells one text. -/
theorem Spells.unique {s' : List α} (h : Spells buf s) (h' : Spells buf s') : s = s' := by
  have htext := h.text (Nat.le_max_left s.length s'.length)
  rw [h'.text (Nat.le_max_right _ _)] at htext
  exact htext.symm

/-- Up to a zero the buffer spells its text. -/
theorem spells_text (h : buf n = 0) : Spells buf (text buf n) where
  get i hi := by
    rcases Nat.eq_or_lt_of_le hi with rfl | hlt
    · rw [List.getD_eq_default _ _ le_rfl, ← scan_eq_length_text]
      -- the text stops at a zero, or at the one that is known
      obtain ⟨-, hle, -, hstop⟩ := Scan.scan_spec (fun i => buf i != 0) 0 n
      rw [Nat.zero_add] at hle hstop
      rcases Nat.eq_or_lt_of_le hle with hfull | hshort
      · rwa [hfull]
      · simpa using hstop hshort
    · rw [List.getD_eq_getElem _ _ hlt]
      unfold text
      rw [List.IsPrefix.getElem (List.takeWhile_prefix _) hlt, List.getElem_map, List.getElem_range]
  nonzero c hc := by
    have hkept := List.mem_takeWhile_imp hc
    simpa using hkept

end Terminated
