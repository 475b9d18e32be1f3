import Mathlib

set_option autoImplicit false

/-! # Logs

A log grows at its end, one entry a step. What it shows is often a property of each entry in the light
of the entries before it (the answer to a request depends on the requests before): `EachEntry`. It is
kept step by step with `eachEntry_snoc`. -/

namespace Logs

variable {α : Type*}

/-- Every entry of the log satisfies `P`, read with the entries before it. -/
def EachEntry (P : List α → α → Prop) (log : List α) : Prop :=
  ∀ before e after, log = before ++ e :: after → P before e

variable {P : List α → α → Prop} {log : List α}

theorem eachEntry_nil : EachEntry P [] := by
  intro before e after h
  simp at h

/-- The entries of a log that grew by one: the new one, or an old one. -/
theorem append_cons_eq_snoc {before after : List α} {e e' : α}
    (h : before ++ e :: after = log ++ [e']) :
    (before = log ∧ e = e') ∨ ∃ after', log = before ++ e :: after' := by
  rcases List.eq_nil_or_concat after with rfl | ⟨after', last, rfl⟩
  · obtain ⟨hlog, he⟩ := List.append_inj' h rfl
    exact Or.inl ⟨hlog, List.singleton_inj.1 he⟩
  · refine Or.inr ⟨after', ?_⟩
    rw [List.concat_eq_append, ← List.cons_append, ← List.append_assoc] at h
    exact (List.append_inj' h rfl).1.symm

/-- One more entry: it has to satisfy the property in the light of the log so far. -/
theorem eachEntry_snoc {e : α} : EachEntry P (log ++ [e]) ↔ EachEntry P log ∧ P log e := by
  constructor
  · intro h
    refine ⟨fun before e' after hlog => ?_, h log e [] rfl⟩
    exact h before e' (after ++ [e]) (by rw [hlog, List.append_assoc, List.cons_append])
  · rintro ⟨hlog, he⟩ before e' after heq
    rcases append_cons_eq_snoc heq.symm with ⟨rfl, rfl⟩ | ⟨after', hold⟩
    · exact he
    · exact hlog before e' after' hold

end Logs
