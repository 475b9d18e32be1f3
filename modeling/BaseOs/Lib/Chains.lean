import Mathlib

set_option autoImplicit false

/-! # Pointer chains and stacks of sessions

`Follows next o l` says that following the partial function `next` from `o` meets exactly the nodes
of `l` and then ends. Such a chain is untouched by changes of `next` outside it. Its nodes are the ones
that `Reaches` speaks of, which makes sense also where the chain runs in a circle.

A *session layout* gives each owner `t` a stack of nodes, the bottom one being the node `base t`
reserved for it. The stacks of a well-formed layout are disjoint; pushing a fresh node, popping above
the bottom and starting an empty stack keep it so. -/

namespace Chains

variable {α τ : Type*}

/-! ## Following a pointer -/

/-- Following `next` from `o` meets the nodes `l`, in this order, and then ends. -/
inductive Follows (next : α → Option α) : Option α → List α → Prop
  | nil : Follows next none []
  | cons {a : α} {l : List α} : Follows next (next a) l → Follows next (some a) (a :: l)

variable {next next' : α → Option α} {o : Option α} {a b : α} {l l' : List α}

theorem follows_some :
    Follows next (some a) l ↔ ∃ rest, l = a :: rest ∧ Follows next (next a) rest := by
  constructor
  · intro h
    cases h with
    | cons hrest => exact ⟨_, rfl, hrest⟩
  · rintro ⟨rest, rfl, hrest⟩
    exact .cons hrest

theorem follows_cons : Follows next o (a :: l) ↔ o = some a ∧ Follows next (next a) l := by
  constructor
  · intro h
    cases h with
    | cons hrest => exact ⟨rfl, hrest⟩
  · rintro ⟨rfl, hrest⟩
    exact .cons hrest

theorem Follows.head? (h : Follows next o l) : l.head? = o := by
  cases h <;> rfl

/-- A chain depends on `next` only at its own nodes. -/
theorem Follows.congr (h : Follows next o l) (hagree : ∀ x ∈ l, next' x = next x) :
    Follows next' o l := by
  induction h with
  | nil => exact .nil
  | @cons a l _ ih =>
      refine .cons ?_
      rw [hagree a List.mem_cons_self]
      exact ih fun x hx => hagree x (List.mem_cons_of_mem a hx)

/-- Following `next` from `o` comes to `a`. -/
inductive Reaches (next : α → Option α) (o : Option α) : α → Prop
  | here {a : α} : o = some a → Reaches next o a
  | next {a b : α} : Reaches next o a → next a = some b → Reaches next o b

theorem Reaches.cons (h : Reaches next (next a) b) : Reaches next (some a) b := by
  induction h with
  | here ho => exact .next (.here rfl) ho
  | next _ hnext ih => exact .next ih hnext

theorem Follows.next_mem (h : Follows next o l) (ha : a ∈ l) (hnext : next a = some b) : b ∈ l := by
  induction h with
  | nil => simp at ha
  | @cons c l hrest ih =>
      rcases List.mem_cons.1 ha with rfl | hmem
      · rw [hnext] at hrest
        obtain ⟨rest, rfl, -⟩ := follows_some.1 hrest
        simp
      · exact List.mem_cons_of_mem c (ih hmem)

/-- The nodes of a chain are the nodes that are reached. -/
theorem Follows.mem_iff (h : Follows next o l) : a ∈ l ↔ Reaches next o a := by
  constructor
  · intro ha
    induction h with
    | nil => simp at ha
    | @cons c l _ ih =>
        rcases List.mem_cons.1 ha with rfl | hmem
        · exact .here rfl
        · exact (ih hmem).cons
  · intro ha
    induction ha with
    | here ho =>
        rw [ho] at h
        obtain ⟨rest, rfl, -⟩ := follows_some.1 h
        simp
    | next _ hnext ih => exact h.next_mem ih hnext

/-! ## Stacks of sessions -/

/-- A session layout: each owner's stack is empty or ends in its reserved bottom node, stacks do not
    share nodes, and a reserved node is only ever used by its owner. -/
structure WellFormed (base : τ → α) (stack : τ → List α) : Prop where
  nodup : ∀ t, (stack t).Nodup
  disjoint : ∀ t u, t ≠ u → List.Disjoint (stack t) (stack u)
  bottom : ∀ t, stack t ≠ [] → (stack t).getLast? = some (base t)
  reserved : ∀ t u, base u ∈ stack t → t = u

variable {base : τ → α} {stack : τ → List α} {t u : τ}

theorem wellFormed_nil (base : τ → α) : WellFormed base fun _ => [] where
  nodup _ := List.nodup_nil
  disjoint _ _ _ := List.disjoint_nil_left _
  bottom _ h := absurd rfl h
  reserved _ _ h := absurd h List.not_mem_nil

theorem WellFormed.owner_unique (h : WellFormed base stack) (ht : a ∈ stack t)
    (hu : a ∈ stack u) : t = u := by
  by_contra hne
  exact h.disjoint t u hne ht hu

/-- The bottom node of a stack is its owner's reserved node, so a stack whose top is a reserved node
    holds that node alone. -/
theorem WellFormed.eq_singleton_of_top (h : WellFormed base stack) {rest : List α}
    (hs : stack t = base u :: rest) : u = t ∧ rest = [] := by
  have hut : t = u := h.reserved t u (hs ▸ List.mem_cons_self)
  subst hut
  refine ⟨rfl, ?_⟩
  cases rest with
  | nil => rfl
  | cons b rest' =>
      have hlast := h.bottom t (by rw [hs]; exact List.cons_ne_nil _ _)
      have hmem : base t ∈ b :: rest' := by
        rw [hs, List.getLast?_cons_cons] at hlast
        exact List.mem_of_getLast? hlast
      have hnodup := h.nodup t
      rw [hs] at hnodup
      exact absurd hmem (List.nodup_cons.1 hnodup).1

variable [DecidableEq τ]

/-- Replace one stack by one whose nodes are old ones of the same stack or fresh. -/
theorem WellFormed.update (h : WellFormed base stack) {new : List α} (hnodup : new.Nodup)
    (hfresh : ∀ x ∈ new, x ∈ stack t ∨ ∀ u, u ≠ t → x ∉ stack u)
    (hbottom : new ≠ [] → new.getLast? = some (base t))
    (hreserved : ∀ u, base u ∈ new → t = u) :
    WellFormed base (Function.update stack t new) := by
  have hoff : ∀ u, u ≠ t → List.Disjoint new (stack u) := by
    intro u hu x hx hxu
    rcases hfresh x hx with hold | hnot
    · exact h.disjoint t u (Ne.symm hu) hold hxu
    · exact hnot u hu hxu
  refine ⟨fun u => ?_, fun u v huv => ?_, fun u => ?_, fun u v hv => ?_⟩
  · by_cases hu : u = t
    · subst hu; rw [Function.update_self]; exact hnodup
    · rw [Function.update_of_ne hu]; exact h.nodup u
  · by_cases hu : u = t
    · subst hu
      rw [Function.update_self, Function.update_of_ne (Ne.symm huv)]
      exact hoff v (Ne.symm huv)
    · by_cases hv : v = t
      · subst hv
        rw [Function.update_self, Function.update_of_ne hu]
        exact (hoff u hu).symm
      · rw [Function.update_of_ne hu, Function.update_of_ne hv]
        exact h.disjoint u v huv
  · by_cases hu : u = t
    · subst hu; rw [Function.update_self]; exact hbottom
    · rw [Function.update_of_ne hu]; exact h.bottom u
  · by_cases hu : u = t
    · subst hu; rw [Function.update_self] at hv; exact hreserved v hv
    · rw [Function.update_of_ne hu] at hv; exact h.reserved u v hv

/-- Push a node that is in no stack and reserved for nobody. -/
theorem WellFormed.push (h : WellFormed base stack) (hne : stack t ≠ [])
    (hfresh : ∀ u, a ∉ stack u) (hnot : ∀ u, base u ≠ a) :
    WellFormed base (Function.update stack t (a :: stack t)) := by
  refine h.update (List.nodup_cons.2 ⟨hfresh t, h.nodup t⟩) ?_ ?_ ?_
  · intro x hx
    rcases List.mem_cons.1 hx with rfl | hx'
    · exact Or.inr fun u _ => hfresh u
    · exact Or.inl hx'
  · intro _
    obtain ⟨b, rest, hs⟩ := List.exists_cons_of_ne_nil hne
    rw [hs, List.getLast?_cons_cons, ← hs]
    exact h.bottom t hne
  · intro u hu
    rcases List.mem_cons.1 hu with heq | hmem
    · exact absurd heq (hnot u)
    · exact h.reserved t u hmem

/-- Pop the top of a stack that has more than its bottom node. -/
theorem WellFormed.pop (h : WellFormed base stack) {rest : List α} (hs : stack t = a :: rest)
    (hne : rest ≠ []) : WellFormed base (Function.update stack t rest) := by
  have hnodup := h.nodup t
  rw [hs] at hnodup
  refine h.update (List.nodup_cons.1 hnodup).2 (fun x hx => Or.inl ?_) (fun _ => ?_) ?_
  · rw [hs]; exact List.mem_cons_of_mem a hx
  · obtain ⟨b, rest', rfl⟩ := List.exists_cons_of_ne_nil hne
    have hlast := h.bottom t (by rw [hs]; exact List.cons_ne_nil _ _)
    rwa [hs, List.getLast?_cons_cons] at hlast
  · intro u hu
    exact h.reserved t u (by rw [hs]; exact List.mem_cons_of_mem a hu)

/-- Start a session: its stack becomes the reserved node alone. -/
theorem WellFormed.start (h : WellFormed base stack) (hinj : Function.Injective base) (t : τ) :
    WellFormed base (Function.update stack t [base t]) := by
  refine h.update (List.nodup_singleton _) ?_ (fun _ => rfl) ?_
  · intro x hx
    rw [List.mem_singleton.1 hx]
    exact Or.inr fun u hu hmem => hu (h.reserved u t hmem)
  · intro u hu
    exact (hinj (List.mem_singleton.1 hu)).symm

end Chains
