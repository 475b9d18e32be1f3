import Mathlib

set_option autoImplicit false

/-! # Programs that make calls

A program either has ended with a result or makes a call and goes on with the answer. It is executed
against a server, whose state the calls change; before each call other things may happen to that state.
`Prog.exec` executes a program, with `between` for what happens before each call. `Prog.Ensures` says that
whatever happens, as long as it is permitted, every call is answered and the program ends as it should;
`Prog.Ensures.exec` turns this into a statement about executions. Proofs follow the program with the rules
for its constructs; `iterate` is a loop, with fuel, and `Ensures.iterate` its rule, with an invariant and a
measure. A loop that need not end has `Ensures.iterate_rounds`, which counts the rounds, and a counted loop
`Ensures.forFrom`. `embed` makes of a program one that can be part of a program with more calls. To say of an
execution what each of its calls does, `Prog.calls` lists them; a program is proved about as usual, with a server
that answers only calls that do as they should (`guarded`). -/

namespace Programs

universe u

/-- A program with calls from `C`, answers from `R` and a result from `α`. -/
inductive Prog (C R : Type u) (α : Type u) : Type u
  | ret (a : α)
  | call (c : C) (next : R → Prog C R α)

variable {C D R α β σ κ κ' : Type u}

namespace Prog

/-- First the one program, then the other one with its result. -/
def bind : Prog C R α → (α → Prog C R β) → Prog C R β
  | .ret a, f => f a
  | .call c next, f => .call c fun r => (next r).bind f

instance : Monad (Prog C R) where
  pure := .ret
  bind := .bind

/-- Make a call and end with its answer. -/
def request (c : C) : Prog C R R := .call c .ret

/-- Repeat `body` until it yields a result; `none` if that takes more than `fuel` rounds. -/
def iterate (body : σ → Prog C R (σ ⊕ α)) : Nat → σ → Prog C R (Option α)
  | 0, _ => .ret none
  | fuel + 1, s => (body s).bind fun
    | .inl s' => iterate body fuel s'
    | .inr a => .ret (some a)

/-- `for (j = i; j < i + n; j++)`, with a variable that the body changes. -/
def forFrom (body : Nat → σ → Prog C R σ) : Nat → Nat → σ → Prog C R σ
  | _, 0, s => .ret s
  | i, n + 1, s => (body i s).bind (forFrom body (i + 1) n)

/-- The same program, with its calls as calls of another type. -/
def embed (f : C → D) : Prog C R α → Prog D R α
  | .ret a => .ret a
  | .call c next => .call (f c) fun r => (next r).embed f

/-! ## Execution -/

section Execution

variable (serve : κ → C → Option (κ × R))

/-- Execute a program; `between n` happens before call number `n`. `none` is a call without an answer. -/
def exec (between : Nat → κ → κ) : Nat → Prog C R α → κ → Option (α × κ)
  | _, .ret a, k => some (a, k)
  | n, .call c next, k =>
    match serve (between n k) c with
    | some (k', r) => exec between (n + 1) (next r) k'
    | none => none

/-- A call, the state it is made in, its answer and the state then. -/
structure Made (κ C R : Type u) where
  before : κ
  call : C
  answer : R
  after : κ

/-- The calls of an execution. -/
def calls (between : Nat → κ → κ) : Nat → Prog C R α → κ → List (Made κ C R)
  | _, .ret _, _ => []
  | n, .call c next, k =>
    match serve (between n k) c with
    | some (k', r) => ⟨between n k, c, r, k'⟩ :: calls between (n + 1) (next r) k'
    | none => []

open Classical in
/-- The server that answers only if `G` holds of the call. -/
noncomputable def guarded (G : Made κ C R → Prop) (k : κ) (c : C) : Option (κ × R) :=
  (serve k c).filter fun a => decide (G ⟨k, c, a.2, a.1⟩)

variable (other : κ → κ → Prop)

/-- Whatever happens before the calls, within what `other` permits, the calls are answered, and the
    program ends with a result and a state of which `Q` holds. -/
def Ensures : Prog C R α → (α → κ → Prop) → κ → Prop
  | .ret a, Q, k => Q a k
  | .call c next, Q, k =>
    ∀ k₁, other k k₁ → ∃ k₂ r, serve k₁ c = some (k₂, r) ∧ Ensures (next r) Q k₂

variable {serve other} {p : Prog C R α} {f : α → Prog C R β} {k : κ}

theorem guarded_eq_some {G : Made κ C R → Prop} {c : C} {k' : κ} {r : R} :
    guarded serve G k c = some (k', r) ↔ serve k c = some (k', r) ∧ G ⟨k, c, r, k'⟩ := by
  simp only [guarded, Option.filter_eq_some_iff, decide_eq_true_eq]

/-- An execution with the guarded server is one with the server itself, all of whose calls are as they
    should be. -/
theorem exec_guarded {G : Made κ C R → Prop} {between : Nat → κ → κ} {n : Nat} {a : α} {k' : κ}
    (h : p.exec (guarded serve G) between n k = some (a, k')) :
    p.exec serve between n k = some (a, k') ∧ ∀ e ∈ p.calls serve between n k, G e := by
  induction p generalizing n k with
  | ret b => exact ⟨h, fun e he => absurd he List.not_mem_nil⟩
  | call c next ih =>
      cases hanswer : guarded serve G (between n k) c with
      | none =>
          rw [exec, hanswer] at h
          cases h
      | some answer =>
          obtain ⟨k₁, r⟩ := answer
          obtain ⟨hserve, hG⟩ := guarded_eq_some.1 hanswer
          rw [exec, hanswer] at h
          obtain ⟨hexec, hcalls⟩ := ih r h
          rw [exec, calls, hserve]
          refine ⟨hexec, fun e he => ?_⟩
          rcases List.mem_cons.1 he with rfl | he
          · exact hG
          · exact hcalls e he

/-- Every execution ends as ensured, also if what happens before the calls is as permitted only in the states
    of an invariant, which it and the calls give one another. -/
theorem Ensures.exec_of_invariant {Q : α → κ → Prop} {J K : κ → Prop} (h : Ensures serve other p Q k)
    {between : Nat → κ → κ} (hbetween : ∀ n k, J k → other k (between n k) ∧ K (between n k))
    (hserve : ∀ {k c k' r}, K k → serve k c = some (k', r) → J k') (hJ : J k) (n : Nat) :
    ∃ a k', p.exec serve between n k = some (a, k') ∧ Q a k' := by
  induction p generalizing n k with
  | ret a => exact ⟨a, k, rfl, h⟩
  | call c next ih =>
      obtain ⟨hother, hJ₁⟩ := hbetween n k hJ
      obtain ⟨k₂, r, hanswer, hnext⟩ := h _ hother
      obtain ⟨a, k', hexec, hQ⟩ := ih r hnext (hserve hJ₁ hanswer) (n + 1)
      refine ⟨a, k', ?_, hQ⟩
      rw [Prog.exec, hanswer]
      exact hexec

/-- Every execution ends as ensured. -/
theorem Ensures.exec {Q : α → κ → Prop} (h : Ensures serve other p Q k) {between : Nat → κ → κ}
    (hbetween : ∀ n k, other k (between n k)) (n : Nat) :
    ∃ a k', p.exec serve between n k = some (a, k') ∧ Q a k' :=
  h.exec_of_invariant (J := fun _ => True) (K := fun _ => True) (fun n k _ => ⟨hbetween n k, trivial⟩)
    (fun _ _ => trivial) trivial n

/-! ## Rules -/

theorem Ensures.mono {Q Q' : α → κ → Prop} (h : Ensures serve other p Q k)
    (himp : ∀ a k, Q a k → Q' a k) : Ensures serve other p Q' k := by
  induction p generalizing k with
  | ret a => exact himp a k h
  | call c next ih =>
      intro k₁ hk
      obtain ⟨k₂, r, hserve, hnext⟩ := h k₁ hk
      exact ⟨k₂, r, hserve, ih r hnext⟩

@[simp]
theorem ensures_pure {Q : α → κ → Prop} {a : α} :
    Ensures serve other (pure a : Prog C R α) Q k ↔ Q a k := Iff.rfl

@[simp]
theorem ensures_bind {Q : β → κ → Prop} :
    Ensures serve other (p >>= f) Q k ↔
      Ensures serve other p (fun a => Ensures serve other (f a) Q) k := by
  change Ensures serve other (p.bind f) Q k ↔ _
  induction p generalizing k with
  | ret a => exact Iff.rfl
  | call c next ih =>
      simp only [Prog.bind, Ensures, ih]

theorem ensures_request {Q : R → κ → Prop} {c : C} :
    Ensures serve other (request c) Q k ↔
      ∀ k₁, other k k₁ → ∃ k₂ r, serve k₁ c = some (k₂, r) ∧ Q r k₂ := Iff.rfl

/-- The rule for loops: what the body keeps as long as it goes on, with something that gets less. -/
theorem Ensures.iterate {body : σ → Prog C R (σ ⊕ α)} {Q : α → κ → Prop} {I : σ → κ → Prop}
    {v : σ → κ → Nat}
    (hbody : ∀ s k, I s k → Ensures serve other (body s)
      (fun r k' => r.elim (fun s' => I s' k' ∧ v s' k' < v s k) fun a => Q a k') k)
    {fuel : Nat} {s : σ} (hfuel : v s k < fuel) (hI : I s k) :
    Ensures serve other (iterate body fuel s) (fun r k' => ∃ a, r = some a ∧ Q a k') k := by
  induction fuel generalizing s k with
  | zero => exact absurd hfuel (Nat.not_lt_zero _)
  | succ fuel ih =>
      refine ensures_bind.2 ((hbody s k hI).mono ?_)
      intro r k' hr
      cases r with
      | inl s' => exact ih (lt_of_lt_of_le hr.2 (Nat.le_of_lt_succ hfuel)) hr.1
      | inr a => exact ⟨a, rfl, hr⟩

/-- The rule for loops that need not end: the body takes round `n` to round `n + 1` or ends. -/
theorem Ensures.iterate_rounds {body : σ → Prog C R (σ ⊕ α)} {I : Nat → σ → κ → Prop} {Q : α → κ → Prop}
    (hbody : ∀ n s k, I n s k → Ensures serve other (body s)
      (fun r k' => r.elim (fun s' => I (n + 1) s' k') fun a => Q a k') k)
    {n fuel : Nat} {s : σ} (hI : I n s k) :
    Ensures serve other (Prog.iterate body fuel s)
      (fun r k' => r.elim (∃ s', I (n + fuel) s' k') fun a => Q a k') k := by
  induction fuel generalizing n s k with
  | zero => exact ⟨s, hI⟩
  | succ fuel ih =>
      refine ensures_bind.2 ((hbody n s k hI).mono ?_)
      intro r k' hr
      cases r with
      | inl s' =>
          rw [Nat.add_comm fuel 1, ← Nat.add_assoc]
          exact ih hr
      | inr a => exact hr

/-- The rule for counted loops: the body takes index `j` to index `j + 1`. -/
theorem Ensures.forFrom {body : Nat → σ → Prog C R σ} {I : Nat → σ → κ → Prop} {i n : Nat}
    (hbody : ∀ j s k, i ≤ j → j < i + n → I j s k → Ensures serve other (body j s) (I (j + 1)) k) {s : σ}
    (hI : I i s k) : Ensures serve other (Prog.forFrom body i n s) (I (i + n)) k := by
  induction n generalizing i s k with
  | zero => exact hI
  | succ n ih =>
      refine ensures_bind.2 ((hbody i s k le_rfl (by omega) hI).mono fun s' k' hI' => ?_)
      have hrest := ih (fun j s k hj hlt => hbody j s k (by omega) (by omega)) hI'
      rwa [Nat.add_assoc, Nat.add_comm 1 n] at hrest

/-- The rule for an embedded program: seen through `π`, its calls are served as before. -/
theorem Ensures.embed {π : κ' → κ} {g : C → D} {serve' : κ' → D → Option (κ' × R)} {other' : κ' → κ' → Prop}
    {Q : α → κ → Prop} {s : κ'} (hother : ∀ s s', other' s s' → other (π s) (π s'))
    (hserve : ∀ s c k r, serve (π s) c = some (k, r) → ∃ s', serve' s (g c) = some (s', r) ∧ π s' = k)
    (h : Ensures serve other p Q (π s)) : Ensures serve' other' (Prog.embed g p) (fun a s' => Q a (π s')) s := by
  induction p generalizing s with
  | ret a => exact h
  | call c next ih =>
      intro s₁ hs
      obtain ⟨k₂, r, hanswer, hnext⟩ := h _ (hother s s₁ hs)
      obtain ⟨s₂, hanswer', rfl⟩ := hserve s₁ c k₂ r hanswer
      exact ⟨s₂, r, hanswer', ih r hnext⟩

end Execution

end Prog

end Programs
