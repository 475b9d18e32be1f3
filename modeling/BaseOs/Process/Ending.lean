import BaseOs.Process.Claims

set_option autoImplicit false

/-! # The steps of `halt`

Each step, from the descriptors that are closed to the parent that goes on, keeps the tables and the threads
in order. -/

namespace BaseOs

open Kernel

variable {cfg : Config} {k k' : Kernel} {pts : Terminal → Point} {stack stack' : Terminal → List Slot}
  {t u : Terminal}

theorem Ordered.close {status : UInt8} {loc : Locals} {pt : Point} (ho : Ordered k pts stack)
    (hpt : pts k.currTerminal = .close status loc) (h : closeStep k status loc = some (k', pt)) :
    Ordered k' (Function.update pts k.currTerminal pt) stack := by
  have hne : stack k.currTerminal ≠ [] := by
    have := ho.fits k.currTerminal
    rw [hpt] at this
    exact this
  obtain ⟨p, rest, htop, hcur, hpcb⟩ := ho.linked.running hne
  have hid := ho.linked.processId (t := k.currTerminal) (p := p) (by rw [htop]; exact List.mem_cons_self)
  have hobt : ∀ j, (pts k.currTerminal).obtained = some j → False := by
    intro j hj
    rw [hpt] at hj
    cases hj
  have hgo : ∀ p, ¬ (pts k.currTerminal).letsGo p = true := by
    intro p
    rw [hpt]
    exact Bool.false_ne_true
  have hsame := (sameProcs_setFdTable k p closeAllFd).sameSlots
  unfold closeStep at h
  rw [hpcb] at h
  simp only [hid] at h
  cases h
  split_ifs with hlt
  · obtain ⟨hbase, hrest⟩ := ho.linked.base_alone htop hlt
    have hsingle : stack k.currTerminal = [baseSlot k.currTerminal] := by rw [htop, hbase, hrest]
    exact (ho.move (.free status loc) hsingle (fun j hj => (by cases hj))
      (fun j hj => absurd hj (hobt j)) (fun p _ h => absurd h (hgo p))).sameTerminal hsame rfl
  · exact (ho.move (.release status) hne (fun j hj => (by cases hj))
      (fun j hj => absurd hj (hobt j)) (fun p _ h => absurd h (hgo p))).sameTerminal hsame rfl

/-- The current process gives up its slot. -/
theorem Ordered.giveUp {p : Slot} {rest : List Slot} {pt : Point} (ho : Ordered k pts stack)
    (htop : stack k.currTerminal = p :: rest) (hsame : ∀ q, q ≠ p → SameSlot k k' q)
    (hterm : k'.currTerminal = k.currTerminal) (hcur : k'.currentProcess = k.currentProcess)
    (hlinked : Linked k' stack) (hzero : k'.inUse p = 0) (hfits : Fits k' stack k.currTerminal pt)
    (hold : (pts k.currTerminal).obtained = none) (hobt : pt.obtained = none)
    (hgo : ∀ q, pt.letsGo q = true) : Ordered k' (Function.update pts k.currTerminal pt) stack := by
  have hmem : p ∈ stack k.currTerminal := by
    rw [htop]
    exact List.mem_cons_self
  refine ho.advance (fun u hu _ => hu) hterm hlinked hfits (fun _ _ => rfl) id
    (fun u _ => by rw [hcur]) (fun u hu q hq => hsame q ?_) (fun u hu q hq => ?_) (fun q hq hqzero => ?_)
    (fun q hge hused => ?_)
  · rintro rfl
    exact ho.not_claims (Or.inr (Or.inl hmem)) hu hq
  · rcases hq with hq | hq
    · exact ho.not_claims (Or.inr (Or.inl hq)) hu
    · rw [hobt] at hq
      cases hq
  · refine ⟨hgo q, ?_⟩
    rw [hcur]
    by_cases hqp : q = p
    · subst hqp
      obtain ⟨p', rest', htop', hcur', -⟩ := ho.linked.top (List.ne_nil_of_mem hmem)
      rw [htop] at htop'
      obtain rfl := (List.cons.inj htop').1
      exact hcur'
    · rw [(hsame q hqp).inUse] at hqzero
      exact (ho.released _ q hq hqzero).2
  · have hqp : q ≠ p := by
      rintro rfl
      exact hused hzero
    rw [(hsame q hqp).inUse] at hused
    by_cases hclaim : Claims stack k.currTerminal (pts k.currTerminal) q
    · left
      rcases hclaim with h | h | h
      · exact Or.inl h
      · exact Or.inr (Or.inl h)
      · rw [hold] at h
        cases h
    · exact Or.inr ⟨hused, hclaim⟩

theorem sameSlot_clear (k : Kernel) {p q : Slot} (hq : q ≠ p) :
    SameSlot k { k with inUse := Function.update k.inUse p 0 } q :=
  ⟨Function.update_of_ne hq _ _, rfl, rfl, rfl⟩

theorem Ordered.free {status : UInt8} {loc : Locals} {pt : Point} (ho : Ordered k pts stack)
    (hpt : pts k.currTerminal = .free status loc) (h : freeStep k status loc = some (k', pt)) :
    Ordered k' (Function.update pts k.currTerminal pt) stack := by
  have hsingle : stack k.currTerminal = [baseSlot k.currTerminal] := by
    have := ho.fits k.currTerminal
    rw [hpt] at this
    exact this
  obtain ⟨p, rest, htop, hcur, hpcb⟩ :=
    ho.linked.running (by rw [hsingle]; exact List.cons_ne_nil _ _)
  have hp : p = baseSlot k.currTerminal := by
    rw [hsingle] at htop
    exact (List.cons.inj htop).1.symm
  have hid := ho.linked.processId (t := k.currTerminal) (p := p) (by rw [htop]; exact List.mem_cons_self)
  unfold freeStep at h
  rw [hpcb] at h
  simp only [hid] at h
  rw [dif_pos p.isLt] at h
  cases h
  refine ho.giveUp htop (fun q hq => sameSlot_clear k hq) rfl rfl
    (ho.linked.congr rfl fun _ _ _ => ⟨rfl, rfl, rfl⟩) (Function.update_self ..) ⟨hsingle, ?_, ?_⟩
    (by rw [hpt]; rfl) rfl (fun _ => rfl)
  · rw [← hp]
    exact Function.update_self ..
  · exact Nat.zero_le _

theorem Ordered.release {status : UInt8} (ho : Ordered k pts stack)
    (hpt : pts k.currTerminal = .release status) (h : releaseSlot k status = some k') :
    Ordered k' (Function.update pts k.currTerminal .toParent) stack := by
  have hne : stack k.currTerminal ≠ [] := by
    have := ho.fits k.currTerminal
    rw [hpt] at this
    exact this
  obtain ⟨p, rest, htop, hcur, hpcb⟩ := ho.linked.running hne
  unfold releaseSlot at h
  rw [hcur, slot?_val, hpcb] at h
  cases h
  exact ho.giveUp htop (fun q hq => ⟨Function.update_of_ne hq _ _, rfl, rfl, rfl⟩) rfl rfl
    (ho.linked.congr rfl fun _ _ _ => ⟨rfl, rfl, rfl⟩) (Function.update_self ..)
    ⟨p, rest, htop, Function.update_self ..⟩ (by rw [hpt]; rfl) rfl (fun _ => rfl)

/-- The process that goes back has a parent: the `parent_id` of a base shell is no index, and there is no
    step. -/
theorem Linked.parent_below (hl : Linked k stack) {p : Slot} {rest : List Slot}
    (htop : stack k.currTerminal = p :: rest) (h : returnToParent k = some k') :
    ∃ q rest', rest = q :: rest' ∧ k'.currTerminal = k.currTerminal ∧
      k'.currentProcess = Function.update k.currentProcess k.currTerminal (q.val : Int) ∧
      ∀ x, SameSlot k k' x := by
  have hne : stack k.currTerminal ≠ [] := by
    rw [htop]
    exact List.cons_ne_nil _ _
  obtain ⟨p', rest', htop', -, hpcb⟩ := hl.running hne
  obtain ⟨rfl, rfl⟩ := List.cons.inj (htop.symm.trans htop')
  unfold returnToParent at h
  rw [hpcb] at h
  simp only at h
  split at h
  swap
  · cases h
  next q' hq' =>
    cases h
    have hge : ¬ p.val < 3 := by
      intro hlt
      have hparent : (k.pcb p).parentId = -1 := by
        rw [(hl.base_alone htop hlt).1]
        exact hl.bottom _ hne
      unfold Kernel.currentPcb? at hq'
      simp only [Function.update_self, hparent, slot?_neg_one] at hq'
      cases hq'
    obtain ⟨q, rest', rfl⟩ := hl.has_parent htop hge
    obtain ⟨hq, -⟩ := hl.below htop
    exact ⟨q, rest', rfl, rfl, by simp only [hq], fun _ => ⟨rfl, rfl, rfl, rfl⟩⟩

/-- The top of the session is gone, and its parent is the current process. -/
theorem Ordered.popped {p q : Slot} {rest : List Slot} (ho : Ordered k pts stack)
    (hpt : pts k.currTerminal = .toParent) (htop : stack k.currTerminal = p :: q :: rest)
    (hzero : k.inUse p = 0) (hterm : k'.currTerminal = k.currTerminal)
    (hcurrent : k'.currentProcess = Function.update k.currentProcess k.currTerminal (q.val : Int))
    (hsame : ∀ x, SameSlot k k' x) :
    Ordered k' (Function.update pts k.currTerminal .user) (Function.update stack k.currTerminal (q :: rest)) := by
  have hself : Function.update stack k.currTerminal (q :: rest) k.currTerminal = q :: rest :=
    Function.update_self ..
  have hsub : ∀ x ∈ q :: rest, x ∈ stack k.currTerminal := by
    intro x hx
    rw [htop]
    exact List.mem_cons_of_mem p hx
  have hcur : k.currentProcess k.currTerminal = p.val := by
    obtain ⟨p', rest', htop', hcur, -⟩ := ho.linked.running (show stack k.currTerminal ≠ [] by
      rw [htop]
      exact List.cons_ne_nil _ _)
    obtain ⟨rfl, -⟩ := List.cons.inj (htop.symm.trans htop')
    exact hcur
  have hkept : Kept k k' stack := fun _ x _ => ⟨(hsame x).processArray, (hsame x).processId, (hsame x).parentId⟩
  refine ho.advance (fun u hu _ => hu) hterm (ho.linked.pop htop hcurrent hkept)
    (fun hnil => ?_) (fun u hu => Function.update_of_ne hu _ _) (fun _ => ?_)
    (fun u hu => by rw [hcurrent]; exact Function.update_of_ne hu _ _) (fun _ _ x _ => hsame x)
    (fun u hu x hx => ?_) (fun x hx hxzero => ?_) (fun x hge hused => ?_)
  · rw [hself] at hnil
    cases hnil
  · rw [hself]
    exact List.cons_ne_nil _ _
  · rcases hx with hx | hx
    · rw [hself] at hx
      exact ho.not_claims (Or.inr (Or.inl (hsub x hx))) hu
    · cases hx
  · -- only the process that has left had given up its slot
    exfalso
    rw [hself] at hx
    rw [(hsame x).inUse] at hxzero
    have hxcur := (ho.released _ x (hsub x hx) hxzero).2
    rw [hcur] at hxcur
    have hxp : p = x := Fin.ext (by exact_mod_cast hxcur)
    have hnodup := ho.linked.wf.nodup k.currTerminal
    rw [htop, hxp] at hnodup
    exact (List.nodup_cons.1 hnodup).1 hx
  · rw [(hsame x).inUse] at hused
    -- every slot in use has the claimant it had; the one given up is free
    by_cases hclaim : Claims stack k.currTerminal (pts k.currTerminal) x
    · left
      rw [hpt] at hclaim
      rcases hclaim with h | h | h
      · exact Or.inl h
      · rw [htop] at h
        rcases List.mem_cons.1 h with rfl | h
        · exact absurd hzero hused
        · refine Or.inr (Or.inl ?_)
          rw [hself]
          exact h
      · cases h
    · exact Or.inr ⟨hused, hclaim⟩

/-- The parent goes on. -/
theorem Ordered.toParent (ho : Ordered k pts stack) (hpt : pts k.currTerminal = .toParent)
    (h : returnToParent k = some k') :
    ∃ stack', Ordered k' (Function.update pts k.currTerminal .user) stack' := by
  have hfits := ho.fits k.currTerminal
  rw [hpt] at hfits
  obtain ⟨p, rest, htop, hzero⟩ := hfits
  obtain ⟨q, rest', rfl, hterm, hcurrent, hsame⟩ := ho.linked.parent_below htop h
  exact ⟨_, ho.popped hpt htop hzero hterm hcurrent hsame⟩

end BaseOs
