import Mathlib

set_option autoImplicit false

/-! # Runs of a partial step function

A system is given by `step : σ → α → Option σ`: the label says everything that is not determined by
the state (the operation, its arguments, the choices of the environment), and `none` means that the
operation has no defined outcome there. A run folds a list of labels through `step`.

Two ways of constraining a run are used: `AllSteps` puts a condition on each step, read in the state
before it; `AllStates` puts one on each state visited. `run_preserves` is the invariant rule and
`allStates_iff_allSteps` turns an exact one-step statement into an exact statement about runs. -/

namespace Runs

variable {σ α : Type*}

/-- Fold a list of labels through a partial step function. -/
def run (step : σ → α → Option σ) : σ → List α → Option σ
  | s, [] => some s
  | s, a :: as => (step s a).bind fun s' => run step s' as

/-- Every step of the run over `as` from `s` satisfies `P`, read in the state before the step. -/
def AllSteps (step : σ → α → Option σ) (P : σ → α → Prop) : σ → List α → Prop
  | _, [] => True
  | s, a :: as => P s a ∧ ∀ s', step s a = some s' → AllSteps step P s' as

/-- Every state visited by the run over `as` from `s` satisfies `Q`, both ends included. -/
def AllStates (step : σ → α → Option σ) (Q : σ → Prop) : σ → List α → Prop
  | s, [] => Q s
  | s, a :: as => Q s ∧ ∀ s', step s a = some s' → AllStates step Q s' as

variable {step : σ → α → Option σ} {P : σ → α → Prop} {Q : σ → Prop}

@[simp]
theorem run_nil (s : σ) : run step s [] = some s := rfl

theorem run_cons_eq_some {s s' : σ} {a : α} {as : List α} :
    run step s (a :: as) = some s' ↔ ∃ m, step s a = some m ∧ run step m as = some s' := by
  simp only [run, Option.bind_eq_some_iff]

theorem run_append_eq_some {s s' : σ} {as bs : List α} :
    run step s (as ++ bs) = some s' ↔
      ∃ m, run step s as = some m ∧ run step m bs = some s' := by
  induction as generalizing s with
  | nil => simp
  | cons a as ih =>
      simp only [List.cons_append, run_cons_eq_some, ih]
      constructor
      · rintro ⟨m, hm, n, hn, hs⟩
        exact ⟨n, ⟨m, hm, hn⟩, hs⟩
      · rintro ⟨n, ⟨m, hm, hn⟩, hs⟩
        exact ⟨m, hm, n, hn, hs⟩

/-- The invariant rule: what every permitted step preserves, every permitted run preserves. -/
theorem run_preserves {I : σ → Prop}
    (hstep : ∀ s a s', I s → P s a → step s a = some s' → I s')
    {s s' : σ} {as : List α} (hI : I s) (hP : AllSteps step P s as)
    (hrun : run step s as = some s') : I s' := by
  induction as generalizing s with
  | nil =>
      simp only [run_nil, Option.some.injEq] at hrun
      exact hrun ▸ hI
  | cons a as ih =>
      obtain ⟨m, hm, hrest⟩ := run_cons_eq_some.1 hrun
      exact ih (hstep s a m hI hP.1 hm) (hP.2 m hm) hrest

/-- The invariant rule for the states on the way. -/
theorem allStates_of_invariant {I : σ → Prop}
    (hstep : ∀ s a s', I s → P s a → step s a = some s' → I s') (hgood : ∀ s, I s → Q s)
    {s : σ} {as : List α} (hI : I s) (hP : AllSteps step P s as) : AllStates step Q s as := by
  induction as generalizing s with
  | nil => exact hgood s hI
  | cons a as ih =>
      exact ⟨hgood s hI, fun s' hs' => ih (hstep s a s' hI hP.1 hs') (hP.2 s' hs')⟩

/-- What no step of a run decreases, the run does not decrease. -/
theorem le_of_allSteps {β : Type*} [Preorder β] (f : σ → β) {s s' : σ} {as : List α}
    (h : AllSteps step (fun s a => ∀ s', step s a = some s' → f s ≤ f s') s as)
    (hrun : run step s as = some s') : f s ≤ f s' :=
  run_preserves (I := fun t => f s ≤ f t) (fun _ _ _ hle hstep ht => hle.trans (hstep _ ht)) le_rfl h hrun

theorem allSteps_cons {s s' : σ} {a : α} {as : List α} (h : step s a = some s') :
    AllSteps step P s (a :: as) ↔ P s a ∧ AllSteps step P s' as := by
  refine and_congr Iff.rfl ⟨fun hall => hall s' h, fun hall m hm => ?_⟩
  obtain rfl := Option.some.inj (h.symm.trans hm)
  exact hall

instance decidableAllSteps (step : σ → α → Option σ) (P : σ → α → Prop) [∀ s a, Decidable (P s a)] :
    ∀ s as, Decidable (AllSteps step P s as)
  | _, [] => isTrue trivial
  | s, a :: as =>
    match hstep : step s a with
    | none => decidable_of_iff (P s a) ⟨fun h => ⟨h, fun s' h' => by rw [hstep] at h'; cases h'⟩, And.left⟩
    | some s' =>
      have := decidableAllSteps step P s' as
      decidable_of_iff (P s a ∧ AllSteps step P s' as) (allSteps_cons hstep).symm

theorem allSteps_append {s s' : σ} {as bs : List α} (h : run step s as = some s') :
    AllSteps step P s (as ++ bs) ↔ AllSteps step P s as ∧ AllSteps step P s' bs := by
  induction as generalizing s with
  | nil =>
      obtain rfl := Option.some.inj h
      exact ⟨fun hall => ⟨trivial, hall⟩, fun hall => hall.2⟩
  | cons a as ih =>
      obtain ⟨m, hm, hrest⟩ := run_cons_eq_some.1 h
      rw [List.cons_append, allSteps_cons hm, allSteps_cons hm, ih hrest, and_assoc]

theorem allSteps_and {P' : σ → α → Prop} {s : σ} {as : List α} :
    AllSteps step (fun s a => P s a ∧ P' s a) s as ↔ AllSteps step P s as ∧ AllSteps step P' s as := by
  induction as generalizing s with
  | nil => exact ⟨fun _ => ⟨trivial, trivial⟩, fun _ => trivial⟩
  | cons a as ih =>
      simp only [AllSteps, ih]
      exact ⟨fun ⟨h, hall⟩ => ⟨⟨h.1, fun s' hs' => (hall s' hs').1⟩, h.2, fun s' hs' => (hall s' hs').2⟩,
        fun ⟨h, h'⟩ => ⟨⟨h.1, h'.1⟩, fun s' hs' => ⟨h.2 s' hs', h'.2 s' hs'⟩⟩⟩

theorem allSteps_of_forall (h : ∀ s a, P s a) (s : σ) (as : List α) : AllSteps step P s as := by
  induction as generalizing s with
  | nil => trivial
  | cons a as ih => exact ⟨h s a, fun s' _ => ih s'⟩

/-- A condition on labels alone is a condition on every step. -/
theorem allSteps_of_labels {R : α → Prop} {as : List α} (h : ∀ a ∈ as, R a) (s : σ) :
    AllSteps step (fun _ a => R a) s as := by
  induction as generalizing s with
  | nil => trivial
  | cons a as ih =>
      exact ⟨h a List.mem_cons_self, fun s' _ => ih (fun b hb => h b (List.mem_cons_of_mem a hb)) s'⟩

/-- A condition on the steps that gives another one in the states of an invariant, and keeps it. -/
theorem AllSteps.imp {I : σ → Prop} {P' : σ → α → Prop}
    (hstep : ∀ s a, I s → P s a → P' s a ∧ ∀ s', step s a = some s' → I s') {s : σ} {as : List α}
    (hI : I s) (h : AllSteps step P s as) : AllSteps step P' s as := by
  induction as generalizing s with
  | nil => trivial
  | cons a as ih =>
      obtain ⟨hP', hinv⟩ := hstep s a hI h.1
      exact ⟨hP', fun s' hs' => ih (hinv s' hs') (h.2 s' hs')⟩

/-- Conditions that agree in the states of an invariant agree along its runs. -/
theorem allSteps_congr {I : σ → Prop} {P' : σ → α → Prop}
    (hinv : ∀ s a s', I s → step s a = some s' → I s') (hiff : ∀ s a, I s → (P s a ↔ P' s a))
    {s : σ} (hI : I s) (as : List α) : AllSteps step P s as ↔ AllSteps step P' s as := by
  induction as generalizing s with
  | nil => exact Iff.rfl
  | cons a as ih =>
      refine and_congr (hiff s a hI) (forall_congr' fun s' => forall_congr' fun hs' => ?_)
      exact ih (hinv s a s' hI hs')

/-- If a permitted run never gets stuck step by step, it does not get stuck as a whole. -/
theorem run_isSome {I : σ → Prop}
    (hstep : ∀ s a, I s → P s a → ∃ s', step s a = some s' ∧ I s')
    {s : σ} {as : List α} (hI : I s) (hP : AllSteps step P s as) :
    ∃ s', run step s as = some s' ∧ I s' := by
  induction as generalizing s with
  | nil => exact ⟨s, rfl, hI⟩
  | cons a as ih =>
      obtain ⟨m, hm, hIm⟩ := hstep s a hI hP.1
      obtain ⟨s', hs', hI'⟩ := ih hIm (hP.2 m hm)
      exact ⟨s', run_cons_eq_some.2 ⟨m, hm, hs'⟩, hI'⟩

/-- From a step-by-step equivalence to one about runs: under an invariant `I` that permitted steps
    into good states keep, "every state is good" is "every step meets `C`". -/
theorem allStates_iff_allSteps {I : σ → Prop} {C : σ → α → Prop}
    (hstep : ∀ s a s', I s → Q s → P s a → step s a = some s' → (Q s' ↔ C s a) ∧ (Q s' → I s'))
    {s s' : σ} {as : List α} (hI : I s) (hQ : Q s) (hP : AllSteps step P s as)
    (hrun : run step s as = some s') : AllStates step Q s as ↔ AllSteps step C s as := by
  induction as generalizing s with
  | nil => exact ⟨fun _ => trivial, fun _ => hQ⟩
  | cons a as ih =>
      obtain ⟨m, hm, hrest⟩ := run_cons_eq_some.1 hrun
      obtain ⟨hiff, hIm⟩ := hstep s a m hI hQ hP.1 hm
      constructor
      · rintro ⟨_, hall⟩
        have hQm : Q m := by
          cases as with
          | nil => exact hall m hm
          | cons b bs => exact (hall m hm).1
        refine ⟨hiff.1 hQm, fun n hn => ?_⟩
        obtain rfl : m = n := Option.some.inj (hm.symm.trans hn)
        exact (ih (hIm hQm) hQm (hP.2 m hm) hrest).1 (hall m hm)
      · rintro ⟨hC, hall⟩
        refine ⟨hQ, fun n hn => ?_⟩
        obtain rfl : m = n := Option.some.inj (hm.symm.trans hn)
        exact (ih (hIm (hiff.2 hC)) (hiff.2 hC) (hP.2 m hm) hrest).2 (hall m hm)

/-! ## Steps that give something out -/

section Trace

variable {τ β : Type*} {out : σ → α → Option (σ × β)} {out' : τ → α → Option (τ × β)}

/-- A run of a step function that gives something out at each step: the state it ends in, and all that was
    given out. -/
def trace (out : σ → α → Option (σ × β)) : σ → List α → Option (σ × List β)
  | s, [] => some (s, [])
  | s, a :: as => (out s a).bind fun r => (trace out r.1 as).map fun q => (q.1, r.2 :: q.2)

/-- Two systems in lockstep: what each permitted step keeps between their states, with the same output or a
    stop on both sides, whole runs keep. -/
theorem trace_rel {R : σ → τ → Prop} {P : α → Prop}
    (hstep : ∀ s t a, R s t → P a → Option.Rel (fun r q => R r.1 q.1 ∧ r.2 = q.2) (out s a) (out' t a))
    {s : σ} {t : τ} {as : List α} (hR : R s t) (hP : ∀ a ∈ as, P a) :
    Option.Rel (fun r q => R r.1 q.1 ∧ r.2 = q.2) (trace out s as) (trace out' t as) := by
  induction as generalizing s t with
  | nil => exact .some ⟨hR, rfl⟩
  | cons a as ih =>
      have hfirst := hstep s t a hR (hP a List.mem_cons_self)
      unfold trace
      generalize out s a = first, out' t a = first' at hfirst ⊢
      cases hfirst with
      | none => exact .none
      | @some r q h =>
          have hrest := ih h.1 fun a' ha' => hP a' (List.mem_cons_of_mem a ha')
          simp only [Option.bind_some]
          generalize trace out r.1 as = rest, trace out' q.1 as = rest' at hrest ⊢
          cases hrest with
          | none => exact .none
          | some hend => exact .some ⟨hend.1, congrArg₂ List.cons h.2 hend.2⟩

end Trace

end Runs
